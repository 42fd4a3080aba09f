import JsxToJinja.Proofs.Classes.SwitchText

/-! Switch statements as a whole: the declaration of the target, the head and the clauses are read back
as one mapping, which selects what the statement assigns exactly if no assignment is taken for one of an
earlier clause. -/
namespace JsxToJinja.Switch
open JsxToJinja.Text JsxToJinja.Code

variable {target : String} {rest : List Char}

/-! ### The whole statement -/

/-- A statement that sets one variable by the value of a path. -/
structure WrittenSwitch where
  target : String
  subject : List Char
  clauses : List WrittenClause
  name : isName target.toList = true
  path : ∀ c ∈ subject, isPathChar c = true
  subject_ne_nil : subject ≠ []

/-- The declaration of the target, the head of the statement and its clauses. -/
inductive SwitchText (s : WrittenSwitch) : List Char → Prop where
  | mk {g h k m n p q body : List Char} : Blank g → g ≠ [] → Blank h → Blank k → Blank m → Blank n →
      Blank p → Blank q → ClausesText s.target s.clauses body →
      SwitchText s (("let".toList ++ g ++ s.target.toList ++ h ++ ";".toList) ++ k ++ "switch".toList ++
        m ++ "(".toList ++ n ++ s.subject ++ p ++ ")".toList ++ q ++ '\x7b' :: (body ++ ['\x7d']))

def declaration : Pattern :=
  .anyOf [.lit "let", .lit "var"] ++ .someBlanks ++ .group 1 .identifier ++ .blanks ++
    .opt (.lit ":" ++ .many 1 fun c => c != '=' && c != ';') ++
    .opt (.lit "=" ++ .blanks ++ .many 1 (· != ';')) ++ .lit ";"

theorem solid_of_head {t : List Char} (h : t.head?.any (!isBlank ·) = true) : Solid t := by
  cases t with
  | nil => cases h
  | cons c r => exact ⟨c, r, rfl, by simpa using h⟩

/-- The declaration of the target is read up to its semicolon, and its name is captured. -/
theorem passes_declaration (s : WrittenSwitch) {g h : List Char} (hg : Blank g) (hne : g ≠ [])
    (hh : Blank h) : declaration.Passes ("let".toList ++ g ++ s.target.toList ++ h ++ ";".toList) rest
      fun i caps => (1, i + ("let".toList ++ g).length,
        i + ("let".toList ++ g).length + s.target.toList.length) :: caps := by
  have hsemicolon : Solid ";".toList := solid_of_head (by decide)
  have hgap : ∀ c ∈ (s.target.toList ++ (h ++ (";".toList ++ rest))).head?, isBlank c = false := by
    cases ht : s.target.toList with
    | nil =>
      have hname := s.name
      rw [ht] at hname
      cases hname
    | cons c t =>
      have hname := s.name
      rw [ht, isName, Bool.and_eq_true] at hname
      rintro d hd
      obtain rfl : c = d := by simpa using hd
      exact not_blank_of_isIdentifierChar (isIdentifierChar_of_start hname.1)
  have hname : ∀ c ∈ (h ++ (";".toList ++ rest)).head?, (isWord c || c == '$') = false :=
    not_word_after hh (by decide) rest
  have hall := Pattern.passes_append (Pattern.passes_append (Pattern.passes_append
    (Pattern.passes_append (Pattern.passes_append (Pattern.passes_append
      (passes_alt_left (q := .lit "var") (Pattern.passes_lit "let" _))
      (Pattern.passes_many hg hgap (List.length_pos_iff.2 hne)))
      (Pattern.passes_name 1 s.name hname)) (passes_gap hh (hsemicolon.head rest)))
      (Pattern.passes_opt_lit ":" (.many 1 fun c => c != '=' && c != ';') rfl))
      (Pattern.passes_opt_lit "=" (.blanks ++ .many 1 (· != ';')) rfl)) (Pattern.passes_lit ";" rest)
  rw [List.append_nil, List.append_nil] at hall
  exact hall

/-- Everything before the clauses. -/
theorem passes_head (s : WrittenSwitch) {front k m n p q : List Char}
    {add : Nat → Captures → Captures}
    (hfront : ∀ rest, declaration.Passes front rest add) (hk : Blank k) (hm : Blank m) (hn : Blank n)
    (hp : Blank p) (hq : Blank q) :
    head.Passes (front ++ k ++ "switch".toList ++ m ++ "(".toList ++ n ++ s.subject ++ p ++
        ")".toList ++ q ++ ['\x7b']) rest
      fun i caps => (2, i + (front ++ k ++ "switch".toList ++ m ++ "(".toList ++ n).length,
        i + (front ++ k ++ "switch".toList ++ m ++ "(".toList ++ n).length + s.subject.length) ::
        add i caps := by
  have hword : Solid "switch".toList := solid_of_head (by decide)
  have hopen : Solid "(".toList := solid_of_head (by decide)
  have hclose : Solid ")".toList := solid_of_head (by decide)
  have hbrace : Solid ['\x7b'] := solid_of_head (by decide)
  have hsubject : Solid s.subject := by
    obtain ⟨c, t, ht⟩ := List.exists_cons_of_ne_nil s.subject_ne_nil
    exact ⟨c, t, ht, isBlank_of_pathChar (by rw [s.path c (ht ▸ List.mem_cons_self), Bool.true_or])⟩
  have hend : ∀ c ∈ (p ++ (")".toList ++ (q ++ (['\x7b'] ++ rest)))).head?, isPathChar c = false :=
    fun c hc => (Bool.or_eq_false_iff.1
      (not_pathChar_after (d := ')') hp (by decide) (q ++ (['\x7b'] ++ rest)) c hc)).1
  have hstatement := Pattern.passes_append (Pattern.passes_append (Pattern.passes_append
    (Pattern.passes_append (Pattern.passes_append (hfront _) (passes_gap hk (hword.head _)))
      (Pattern.passes_lit "switch" _)) (passes_gap hm (hopen.head _))) (Pattern.passes_lit "(" _))
    (passes_gap hn (hsubject.head (p ++ (")".toList ++ (q ++ (['\x7b'] ++ rest))))))
  exact Pattern.passes_append (Pattern.passes_append (Pattern.passes_append (Pattern.passes_append
    (Pattern.passes_append hstatement
      (passes_group 2 (Pattern.passes_many s.path hend (List.length_pos_iff.2 s.subject_ne_nil))))
    (passes_gap hp (hclose.head _))) (Pattern.passes_lit ")" _)) (passes_gap hq (hbrace.head rest)))
    (Pattern.passes_one (by decide) rest)

/-! ### Closed clauses -/

theorem isOrdinary_of_wordChar {c : Char} (h : (isPathChar c || c == '-') = true) :
    isOrdinary c = true := by
  have hsigns : ∀ d ∈ ['\x27', '\x22', '\x60', '(', '[', '\x7b', ')', ']', '\x7d'],
      (isPathChar d || d == '-') = false := by decide
  have hnot {d : Char} (hd : d ∈ ['\x27', '\x22', '\x60', '(', '[', '\x7b', ')', ']', '\x7d']) :
      (c == d) = false := by
    rw [beq_eq_false_iff_ne]
    rintro rfl
    rw [hsigns c hd] at h
    cases h
  simp only [isOrdinary, isQuote, isOpening, isClosing, Bool.and_eq_true, Bool.not_eq_true',
    Bool.or_eq_false_iff]
  exact ⟨⟨⟨⟨hnot (by simp), hnot (by simp)⟩, hnot (by simp)⟩,
    ⟨hnot (by simp), hnot (by simp)⟩, hnot (by simp)⟩, ⟨hnot (by simp), hnot (by simp)⟩, hnot (by simp)⟩

theorem PlainText.sealed (q : PlainText) : Sealed [] q.written := by
  obtain ⟨quote, text, hquote, hplain⟩ := q
  have hkind : Code.isQuote quote = true := by
    rcases hquote with rfl | rfl <;> decide
  exact sealed_literal hkind (literalBody_of_plain (fun hmem => (hplain _ hmem).2 rfl)
    fun hmem => (hplain _ hmem).1 rfl)

theorem sealed_word {t : List Char} (ht : ∀ c ∈ t, (isPathChar c || c == '-') = true) : Sealed [] t :=
  sealed_of_ordinary fun c hc => ⟨by simp, isOrdinary_of_wordChar (ht c hc)⟩

theorem sealed_gap {g : List Char} (hg : Blank g) : Sealed [] g := sealed_of_blank hg (by simp)

/-- A label holds no bracket that is not closed, so the search for the end of the body passes it. -/
theorem LabelText.sealed {l : WrittenLabel} {t : List Char} (h : LabelText l t) : Sealed [] t := by
  have hcolon : Sealed [] ":".toList := sealed_of_ordinary (by decide)
  cases h with
  | value v hg hh _ hk =>
    have hvalue : Sealed [] v.written := by
      cases v with
      | text q => exact q.sealed
      | number n => exact sealed_word n.chars
    have hcase : Sealed [] "case".toList := sealed_of_ordinary (by decide)
    exact (sealed_gap hg).append
      ((((hcase.append (sealed_gap hh)).append hvalue).append (sealed_gap hk)).append hcolon)
  | default hg hk =>
    have hdefault : Sealed [] "default".toList := sealed_of_ordinary (by decide)
    exact (sealed_gap hg).append ((hdefault.append (sealed_gap hk)).append hcolon)

theorem LabelsText.sealed {ls : List WrittenLabel} {t : List Char} (h : LabelsText ls t) :
    Sealed [] t := by
  induction h with
  | nil => exact .nil
  | cons hl _ ih => exact hl.sealed.append ih

/-- An assignment holds no bracket that is not closed. -/
theorem AssignedText.sealed (ht : IsTarget target) {a : Option AssignedValue} {t : List Char}
    (h : AssignedText target a t) : Sealed [] t := by
  cases h with
  | none => exact .nil
  | some a hg hh hk he =>
    have hvalue : Sealed [] a.written := by
      cases a with
      | text q => exact q.sealed
      | undefined => exact sealed_of_ordinary (by decide)
    have hname : Sealed [] target.toList := sealed_word fun c hc => ht.pathChar hc
    have hsign : Sealed [] "=".toList := sealed_of_ordinary (by decide)
    have hend : Sealed [] ";".toList := sealed_of_ordinary (by decide)
    exact (sealed_gap hg).append (((((hname.append (sealed_gap hh)).append hsign).append
      (sealed_gap hk)).append hvalue).append ((sealed_gap he).append hend))

/-- The clauses hold no bracket that is not closed, so the body ends where it is written to end. -/
theorem ClausesText.sealed (ht : IsTarget target) {cs : List WrittenClause} {t : List Char}
    (h : ClausesText target cs t) : Sealed [] t := by
  induction h with
  | nil hg => exact sealed_gap hg
  | cons hl ha hg he _ ih =>
    have hbreak : Sealed [] "break".toList := sealed_of_ordinary (by decide)
    have hend : Sealed [] ";".toList := sealed_of_ordinary (by decide)
    exact hl.sealed.append ((ha.sealed ht).append ((sealed_gap hg).append
      ((hbreak.append (sealed_gap he)).append (hend.append ih))))

/-! ### Reading the statement -/

theorem text_of_span {t u w r : List Char} {caps : Captures} {n i : Nat} (start stop : Nat)
    (ht : t = u ++ (w ++ r)) (hi : i = u.length)
    (hcaps : caps.find? (·.1 == n) = some (n, i, i + w.length)) :
    Match.text ⟨start, stop, caps⟩ t n = w := by
  rw [Match.text, Match.text?, Match.span?, hcaps, ht, hi]
  exact slice_append_left u w r

/-- Where a head at the front is the only one, the mapping is that of the braces behind it. -/
theorem parseAll_of_match {front body : List Char} {caps : Captures} (hbody : Sealed [] body)
    (hmatch : head.matchAt? ⟨none, 0, (front ++ ['\x7b']) ++ (body ++ ['\x7d'])⟩ =
      some ⟨0, 0 + (front ++ ['\x7b']).length, caps⟩)
    (hone : (head.findAll ((front ++ ['\x7b']) ++ (body ++ ['\x7d']))).length = 1) :
    parseAll ((front ++ ['\x7b']) ++ (body ++ ['\x7d'])) =
      (ofBody? body
        (String.ofList (Match.text ⟨0, 0 + (front ++ ['\x7b']).length, caps⟩
          ((front ++ ['\x7b']) ++ (body ++ ['\x7d'])) 1))
        (String.ofList (stripProps (Match.text ⟨0, 0 + (front ++ ['\x7b']).length, caps⟩
          ((front ++ ['\x7b']) ++ (body ++ ['\x7d'])) 2)))).toList := by
  have hfound : head.findAll ((front ++ ['\x7b']) ++ (body ++ ['\x7d'])) = _ :=
    Pattern.matchesFrom_hit (by simp) hmatch
  rw [hfound, List.length_cons] at hone
  have hinner : balancedInner? ((front ++ ['\x7b']) ++ (body ++ ['\x7d']))
      (0 + (front ++ ['\x7b']).length - 1) = some body := by
    have hgroup := balancedInner?_group (isGroup_bracket (by decide) hbody) front []
    have hlen : 0 + (front ++ ['\x7b']).length - 1 = front.length := by simp
    rw [hlen]
    simpa using hgroup
  rw [parseAll, hfound, List.eq_nil_of_length_eq_zero (Nat.succ.inj hone)]
  simp only [List.filterMap_cons, List.filterMap_nil, hinner, Option.bind_eq_bind, Option.bind_some]
  cases ofBody? body _ _ <;> rfl

namespace WrittenSwitch

variable (s : WrittenSwitch)

def arms : Arms := (s.clauses.map (·.clause)).foldl Clause.step {}

def mapping : Switch :=
  ⟨String.ofList (stripProps s.subject), s.target, s.arms.cases, s.arms.default⟩

variable {s}

theorem ofBody?_eq (ht : IsTarget s.target) {body : List Char}
    (h : ClausesText s.target s.clauses body) (subject : String) :
    ofBody? body s.target subject =
      if s.arms.cases.isEmpty && s.arms.default.isNone then none
      else some ⟨subject, s.target, s.arms.cases, s.arms.default⟩ := by
  have hscan : ((landmark s.target).findAll body).foldl (step body) {} = s.arms :=
    (scan_clauses ht h clear_nil {} : scan s.target [] body {} = s.arms)
  rw [ofBody?, hscan]

/-- A statement whose head is spelled once is read as one mapping, or as none if nothing is assigned. -/
theorem parseAll_eq (hdollar : s.target.toList.head? ≠ some '$') {text : List Char}
    (h : SwitchText s text) (hone : (head.findAll text).length = 1) :
    parseAll text = if s.arms.cases.isEmpty && s.arms.default.isNone then [] else [s.mapping] := by
  cases h with
  | @mk g h k m n p q body hg hne hh hk hm hn hp hq hbody =>
    have htarget : IsTarget s.target := ⟨s.name, hdollar⟩
    have hpass : head.Passes _ (body ++ ['\x7d']) _ :=
      passes_head s (fun rest => passes_declaration s hg hne hh) hk hm hn hp hq
    have hmatch := matchAt?_of_passes hpass none 0
    rw [← List.singleton_append, ← List.append_assoc _ ['\x7b']] at hone ⊢
    rw [parseAll_of_match (hbody.sealed htarget) hmatch hone]
    rw [text_of_span (n := 1) (w := s.target.toList) (u := "let".toList ++ g) _ _
        (by simp only [List.append_assoc]; rfl) (Nat.zero_add _) rfl,
      text_of_span (n := 2) (w := s.subject) _ _ (by simp only [List.append_assoc]; rfl) (Nat.zero_add _) rfl,
      String.ofList_toList, ofBody?_eq htarget hbody]
    split <;> rfl

/-- The mapping of a statement selects for every value what the statement assigns, exactly if something
is assigned and no clause is left waiting for an assignment of another. -/
theorem parseAll_recovers_iff (s : WrittenSwitch) (hdollar : s.target.toList.head? ≠ some '$')
    {text : List Char} (h : SwitchText s text) (hone : (head.findAll text).length = 1) :
    (∃ sw, parseAll text = [sw] ∧
      ∀ key, sw.select? key = assigned (s.clauses.map (·.clause)) key) ↔
    (∃ c ∈ s.clauses, c.assigned ≠ none) ∧ Recovered (s.clauses.map (·.clause)) := by
  have hparse := parseAll_eq hdollar h hone
  have hselect (key : String) : s.mapping.select? key =
      (following (·.lists key) (s.clauses.map (·.clause))).or
        (following (·.isDefault) (s.clauses.map (·.clause))) := by
    obtain ⟨hdefault, hcases⟩ := foldl_clauses (s.clauses.map (·.clause)) {}
    have hsplit : s.mapping.select? key = (s.arms.select? key).or s.arms.default := rfl
    rw [hsplit, arms, hcases key, hdefault]
    rfl
  have hlabels : ∀ c ∈ s.clauses.map (·.clause), c.labels ≠ [] := by
    intro c hc
    obtain ⟨w, -, rfl⟩ := List.mem_map.1 hc
    simpa [WrittenClause.clause] using w.labelled
  have hsome : (s.arms.cases.isEmpty && s.arms.default.isNone) = false ↔
      ∃ c ∈ s.clauses, c.assigned ≠ none := by
    rw [← Bool.not_eq_true, arms, isEmpty_foldl_iff hlabels]
    simp [WrittenClause.clause]
  rw [← hsome, ← following_eq_assigned_iff]
  constructor
  · rintro ⟨sw, hsw, hall⟩
    cases hempty : s.arms.cases.isEmpty && s.arms.default.isNone with
    | true =>
      rw [hparse, if_pos hempty] at hsw
      cases hsw
    | false =>
      rw [hparse, if_neg (by simp [hempty])] at hsw
      obtain rfl : s.mapping = sw := List.singleton_inj.1 hsw
      exact ⟨rfl, fun key => (hselect key).symm.trans (hall key)⟩
  · rintro ⟨hempty, hall⟩
    refine ⟨s.mapping, by rw [hparse, if_neg (by simp [hempty])], fun key => ?_⟩
    rw [hselect, hall]

end WrittenSwitch

/-! ### Statements with two clauses -/

theorem plain_letter {c : Char} (h : isWord c = true) : ∀ d ∈ [c], d ≠ '\x27' ∧ d ≠ '\\' := by
  intro d hd
  obtain rfl := List.mem_singleton.1 hd
  constructor <;> (rintro rfl; cases h)

theorem isQuote_letter : '\x27' = '\x27' ∨ '\x27' = '\x22' := .inl rfl

def letter (c : Char) (h : isWord c = true) : PlainText := ⟨'\x27', [c], isQuote_letter, plain_letter h⟩

theorem twoClauses_path : ∀ c ∈ ['v'], isPathChar c = true := by decide

/-- `r` is set by `v`, with a clause for `a` and one for `b`. -/
def twoClauses (first second : Option AssignedValue) : WrittenSwitch where
  target := "r"
  subject := ['v']
  clauses := [⟨[.value (.text (letter 'a' rfl))], first, List.cons_ne_nil _ _⟩,
    ⟨[.value (.text (letter 'b' rfl))], second, List.cons_ne_nil _ _⟩]
  name := rfl
  path := twoClauses_path
  subject_ne_nil := List.cons_ne_nil _ _

def twoClausesText (first second : List Char) : List Char :=
  "let r; switch (v) \x7b case 'a':".toList ++ (first ++ (" break; case 'b':".toList ++
    (second ++ " break; \x7d".toList)))

theorem text_letterX : AssignedText "r" (some (.text (letter 'x' rfl))) " r = 'x';".toList :=
  .some (.text (letter 'x' rfl)) blank_space blank_space blank_space blank_nil

theorem switchText_twoClauses {first second : Option AssignedValue} {t u : List Char}
    (ht : AssignedText "r" first t) (hu : AssignedText "r" second u) :
    SwitchText (twoClauses first second) (twoClausesText t u) := by
  have hlabel (c : Char) (h : isWord c = true) : LabelsText [.value (.text (letter c h))] _ :=
    .cons (.value (.text (letter c h)) blank_space blank_space (List.cons_ne_nil _ _) blank_nil) .nil
  have hclauses : ClausesText "r" (twoClauses first second).clauses _ :=
    .cons (hlabel 'a' rfl) ht blank_space blank_nil
      (.cons (hlabel 'b' rfl) hu blank_space blank_nil (.nil blank_space))
  have htext := SwitchText.mk (s := twoClauses first second) blank_space (List.cons_ne_nil _ _) blank_nil
    blank_space blank_space blank_nil blank_nil blank_space hclauses
  have htarget : (twoClauses first second).target = "r" := rfl
  have hsubject : (twoClauses first second).subject = ['v'] := rfl
  -- the generated equation of a definition with long literals is slow to check
  delta twoClausesText
  simpa [htarget, hsubject, CaseValue.written, PlainText.written, letter] using htext

/-- Behind the last assignment a clause may do without one. -/
theorem last_clause_unassigned_recovered :
    SwitchText (twoClauses (some (.text (letter 'x' rfl))) none) (twoClausesText " r = 'x';".toList []) ∧
      ∃ sw, parseAll (twoClausesText " r = 'x';".toList []) = [sw] ∧ ∀ key, sw.select? key =
        assigned ((twoClauses (some (.text (letter 'x' rfl))) none).clauses.map (·.clause)) key := by
  have htext := switchText_twoClauses text_letterX .none
  have hrecovered : Recovered
      ([⟨[.value (.str "a")], some "x"⟩] ++ [⟨[.value (.str "b")], none⟩]) :=
    recovered_of_behind (by decide) (by decide) (by decide)
  exact ⟨htext, (WrittenSwitch.parseAll_recovers_iff _ (by decide) htext (by decide +kernel)).2
    ⟨⟨_, List.mem_cons_self, Option.some_ne_none _⟩, hrecovered⟩⟩

/-- Before it, its labels go to the next assignment. -/
theorem first_clause_unassigned_leaks :
    SwitchText (twoClauses none (some (.text (letter 'x' rfl)))) (twoClausesText [] " r = 'x';".toList) ∧
      (parseAll (twoClausesText [] " r = 'x';".toList)).map (·.select? "a") = [some "x"] ∧
      assigned ((twoClauses none (some (.text (letter 'x' rfl)))).clauses.map (·.clause)) "a" = none :=
  ⟨switchText_twoClauses .none text_letterX, by decide +kernel, by decide⟩

end JsxToJinja.Switch
