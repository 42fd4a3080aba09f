import JsxToJinja.Proofs.Code.Logic
import JsxToJinja.Proofs.Text.PatternRuns

/-! What dropping `props.` does to a text and to a member path. It takes the names of a path that are
`props`, also those behind other names, and the end of those that end in a dollar sign and `props`. -/
namespace JsxToJinja
open JsxToJinja.Text JsxToJinja.Code

/-! ### Pieces of a text -/

/-- Only whether a word goes on in front of the text counts. -/
theorem dropPropsFrom_congr {before before' : Option Char}
    (h : before.any isWord = before'.any isWord) (t : List Char) :
    dropPropsFrom 0 before t = dropPropsFrom 0 before' t := by
  cases t with
  | nil => rfl
  | cons c t => rw [dropPropsFrom, dropPropsFrom, h]

theorem dropPropsFrom_eq_stripProps {before : Option Char} (h : before.any isWord = false)
    (t : List Char) : dropPropsFrom 0 before t = stripProps t := by
  rw [stripProps]
  exact dropPropsFrom_congr h t

/-- No `props.` reaches into a text that begins with another character. -/
theorem dropPropsFrom_append {t rest : List Char} (hr : ∀ c ∈ rest.head?, c ∉ propsHead)
    {skip : Nat} (hskip : skip ≤ t.length) (before : Option Char) :
    dropPropsFrom skip before (t ++ rest) =
      dropPropsFrom skip before t ++ dropPropsFrom 0 (t.getLast?.or before) rest := by
  induction t generalizing skip before with
  | nil =>
    obtain rfl : skip = 0 := Nat.le_zero.1 hskip
    rfl
  | cons c t ih =>
    rw [getLast?_cons_or, List.cons_append]
    cases skip with
    | succ skip => exact ih (Nat.le_of_succ_le_succ hskip) (some c)
    | zero =>
      rw [dropPropsFrom, dropPropsFrom, ← List.cons_append, startsWith_append hr]
      split
      · rename_i hdrop
        have hlen := (List.isPrefixOf_iff_prefix.1 (Bool.and_eq_true_iff.1 hdrop).2).length_le
        exact ih (by simpa using Nat.sub_le_of_le_add hlen) (some c)
      · rw [ih (Nat.zero_le _), List.cons_append]

theorem stripProps_append {t rest : List Char} (hr : ∀ c ∈ rest.head?, c ∉ propsHead) :
    stripProps (t ++ rest) = stripProps t ++ dropPropsFrom 0 t.getLast? rest := by
  rw [stripProps, dropPropsFrom_append hr (Nat.zero_le _), Option.or_none, stripProps]

theorem dropPropsFrom_head {before : Option Char} (hb : before.any isWord = false) (t : List Char) :
    dropPropsFrom 0 before (propsHead ++ t) = stripProps t := by
  have hstart : startsWith (propsHead ++ t) propsHead = true := startsWith_append_self _ _
  have hhead : propsHead ++ t = 'p' :: 'r' :: 'o' :: 'p' :: 's' :: '.' :: t := rfl
  rw [hhead] at hstart ⊢
  rw [dropPropsFrom, if_pos (by simp [hb, hstart])]
  exact dropPropsFrom_eq_stripProps (by decide) t

theorem dropPropsFrom_cons {before : Option Char} {c : Char} (h : c ≠ 'p') (t : List Char) :
    dropPropsFrom 0 before (c :: t) = c :: dropPropsFrom 0 (some c) t := by
  have hstart : startsWith (c :: t) propsHead = false := startsWith_of_head (c := 'p') (by simpa using h) "rops.".toList
  rw [dropPropsFrom, if_neg (by simp [hstart])]

theorem stripProps_cons {c : Char} (h : c ≠ 'p') (t : List Char) :
    stripProps (c :: t) = c :: dropPropsFrom 0 (some c) t := dropPropsFrom_cons h t

/-- Between two words, and no part of `props.`. -/
def Spacer (w : List Char) : Prop := ∀ c ∈ w, isWord c = false ∧ c ∉ propsHead

theorem Spacer.append {v w : List Char} (hv : Spacer v) (hw : Spacer w) : Spacer (v ++ w) := fun c hc =>
  (List.mem_append.1 hc).elim (hv c) (hw c)

theorem spacer_of_blank {p : List Char} (hp : Blank p) : Spacer p := by
  refine fun c hc => ⟨not_isWord_of_isBlank (hp c hc), fun hm => ?_⟩
  have hall : ∀ d ∈ propsHead, isBlank d = false := by decide
  simpa [hall c hm] using hp c hc

theorem Spacer.head {w : List Char} (hw : Spacer w) (hne : w ≠ []) (rest : List Char) :
    ∀ c ∈ (w ++ rest).head?, c ∉ propsHead := by
  intro c hc
  obtain ⟨d, v, rfl⟩ := List.exists_cons_of_ne_nil hne
  exact (hw c (List.mem_of_mem_head? hc)).2

/-- Nothing is dropped from a spacer, and a word begins behind it. -/
theorem Spacer.dropPropsFrom_eq {w : List Char} (hw : Spacer w) {before : Option Char} (t : List Char)
    (hb : w = [] → before.any isWord = false) :
    dropPropsFrom 0 before (w ++ t) = w ++ stripProps t := by
  induction w generalizing before with
  | nil => exact dropPropsFrom_eq_stripProps (hb rfl) t
  | cons c w ih =>
    obtain ⟨hword, hno⟩ := hw c List.mem_cons_self
    have hp : c ≠ 'p' := by
      rintro rfl
      exact hno (by decide)
    rw [List.cons_append, dropPropsFrom_cons hp, ih (fun d hd => hw d (List.mem_cons_of_mem _ hd))
      fun _ => by simpa using hword]
    rfl

theorem Spacer.dropPropsFrom_self {w : List Char} (hw : Spacer w) (hne : w ≠ []) (before : Option Char) :
    dropPropsFrom 0 before w = w := by
  have hkept : dropPropsFrom 0 before (w ++ []) = w ++ stripProps [] :=
    hw.dropPropsFrom_eq [] fun he => absurd he hne
  simpa [stripProps, dropPropsFrom] using hkept

/-! ### Names in front of a dot -/

/-- What a name has in front of `props` when it ends in this word. -/
def beforeProps? : Option Char → List Char → Option (List Char)
  | _, [] => none
  | before, c :: t =>
    if !before.any isWord && c :: t == "props".toList then some []
    else (beforeProps? (some c) t).map (c :: ·)

theorem beforeProps?_some {before : Option Char} {w u : List Char} (h : beforeProps? before w = some u) :
    w = u ++ "props".toList ∧ (u.getLast?.or before).any isWord = false := by
  induction w generalizing before u with
  | nil => cases h
  | cons c w ih =>
    rw [beforeProps?] at h
    split at h
    · rename_i hdrop
      simp only [Bool.and_eq_true, Bool.not_eq_true', beq_iff_eq] at hdrop
      cases h
      exact ⟨hdrop.2, hdrop.1⟩
    · obtain ⟨v, hv, rfl⟩ := Option.map_eq_some_iff.1 h
      obtain ⟨rfl, hlast⟩ := ih hv
      exact ⟨rfl, by rw [getLast?_cons_or]; exact hlast⟩

theorem upToDot {w : List Char} (hw : '.' ∉ w) (t : List Char) :
    (w ++ '.' :: t).takeWhile (· != '.') = w := by
  have hall : ∀ c ∈ w, (c != '.') = true := fun c hc => by
    rw [bne_iff_ne]
    rintro rfl
    exact hw hc
  rw [List.takeWhile_append_of_pos hall]
  simp

/-- The dot behind a name ends the only `props.` there can be. -/
theorem dropPropsFrom_dot {w : List Char} (hw : '.' ∉ w) (before : Option Char) (t : List Char) :
    dropPropsFrom 0 before (w ++ '.' :: t) =
      (beforeProps? before w).getD (w ++ ['.']) ++ stripProps t := by
  induction w generalizing before with
  | nil =>
    rw [List.nil_append, dropPropsFrom_cons (by decide), dropPropsFrom_eq_stripProps (by decide)]
    rfl
  | cons c w ih =>
    by_cases hdrop : before.any isWord = false ∧ c :: w = "props".toList
    · have htext : c :: w ++ '.' :: t = propsHead ++ t := by
        rw [hdrop.2]
        rfl
      rw [htext, dropPropsFrom_head hdrop.1, beforeProps?, if_pos (by simpa using hdrop)]
      rfl
    · have hkept : ¬ ((!before.any isWord) && startsWith (c :: (w ++ '.' :: t)) propsHead) = true := by
        simp only [Bool.and_eq_true, Bool.not_eq_true', startsWith, List.isPrefixOf_iff_prefix]
        rintro ⟨hb, r, hr⟩
        have hname := congrArg (List.takeWhile (· != '.')) hr
        have hhead : propsHead ++ r = "props".toList ++ '.' :: r := rfl
        rw [hhead, ← List.cons_append, upToDot (by decide), upToDot hw] at hname
        exact hdrop ⟨hb, hname.symm⟩
      rw [List.cons_append, dropPropsFrom, if_neg hkept, beforeProps?, if_neg (by simpa using hdrop),
        ih fun hm => hw (List.mem_cons_of_mem _ hm)]
      cases beforeProps? (some c) w <;> rfl

/-! ### Member paths -/

def linkedText (w : List Char) (ls : List (Bool × List Char)) : List Char :=
  w ++ ls.flatMap MemberPath.linkText

/-- A path without every `props.`; `kept` stands in front of the first name. -/
def dropLinks (kept w : List Char) : List (Bool × List Char) → List Char × List (Bool × List Char)
  | [] => (kept ++ w, [])
  | (optional, v) :: ls =>
    match if optional then none else beforeProps? none w with
    | some u => dropLinks (kept ++ u) v ls
    | none => (kept ++ w, (optional, (dropLinks [] v ls).1) :: (dropLinks [] v ls).2)

theorem dot_notMem {w : List Char} (h : isIdentifier w = true) : '.' ∉ w := fun hm =>
  absurd (isIdentifierChar_of_mem h hm) (by decide)

theorem isIdentifier_append {u w : List Char} (hu : u = [] ∨ isIdentifier u = true)
    (hw : isIdentifier w = true) : isIdentifier (u ++ w) = true := by
  rcases hu with rfl | hu
  · exact hw
  · cases u with
    | nil => exact hw
    | cons c u =>
      simp only [isIdentifier, Bool.and_eq_true, List.all_eq_true] at hu
      simp only [List.cons_append, isIdentifier, Bool.and_eq_true, List.all_eq_true, List.mem_append]
      exact ⟨hu.1, fun d hd => hd.elim (hu.2 d) (isIdentifierChar_of_mem hw)⟩

theorem isIdentifier_of_append {u w : List Char} (h : isIdentifier (u ++ w) = true) :
    u = [] ∨ isIdentifier u = true := by
  cases u with
  | nil => exact .inl rfl
  | cons c u =>
    simp only [List.cons_append, isIdentifier, Bool.and_eq_true, List.all_append] at h ⊢
    exact .inr ⟨h.1, h.2.1⟩

section
variable {kept w : List Char} {ls : List (Bool × List Char)}

theorem linkedText_dot (w v : List Char) (ls : List (Bool × List Char)) :
    linkedText w ((false, v) :: ls) = w ++ '.' :: linkedText v ls := by
  simp [linkedText, MemberPath.linkText]

theorem linkedText_link (w v : List Char) (ls : List (Bool × List Char)) :
    linkedText w ((true, v) :: ls) = w ++ '?' :: '.' :: linkedText v ls := by
  simp [linkedText, MemberPath.linkText]

theorem dropPropsFrom_link {w : List Char} (hw : isIdentifier w = true) (t : List Char) :
    stripProps (w ++ '?' :: '.' :: t) = w ++ '?' :: '.' :: stripProps t := by
  have hhead : ∀ c ∈ ('?' :: '.' :: t).head?, c ∉ propsHead := by simp; decide
  rw [stripProps_append hhead, stripProps_of_isIdentifier hw, dropPropsFrom_cons (by decide),
    dropPropsFrom_cons (by decide), dropPropsFrom_eq_stripProps (by decide)]

/-- By induction on the links; what is kept of a name goes on with the next one. -/
theorem stripProps_linkedText (hw : isIdentifier w = true) (hls : ∀ l ∈ ls, isIdentifier l.2 = true)
    (kept : List Char) : kept ++ stripProps (linkedText w ls) =
      linkedText (dropLinks kept w ls).1 (dropLinks kept w ls).2 := by
  induction ls generalizing kept w with
  | nil => simp [linkedText, dropLinks, stripProps_of_isIdentifier hw]
  | cons l ls ih =>
    obtain ⟨optional, v⟩ := l
    obtain ⟨hv, hrest⟩ := List.forall_mem_cons.1 hls
    have hnext : stripProps (linkedText v ls) = _ := ih hv hrest []
    cases optional with
    | true =>
      rw [linkedText_link, dropPropsFrom_link hw, hnext]
      simp [dropLinks, linkedText_link]
    | false =>
      rw [linkedText_dot, stripProps, dropPropsFrom_dot (dot_notMem hw), hnext]
      cases hdrop : beforeProps? none w with
      | some u => simpa [dropLinks, hdrop, hnext] using ih hv hrest (kept ++ u)
      | none => simp [dropLinks, hdrop, linkedText_dot]

/-- Dropping a name from a path leaves names. -/
theorem dropLinks_names (hk : kept = [] ∨ isIdentifier kept = true) (hw : isIdentifier w = true)
    (hls : ∀ l ∈ ls, isIdentifier l.2 = true) :
    isIdentifier (dropLinks kept w ls).1 = true ∧
      ∀ l ∈ (dropLinks kept w ls).2, isIdentifier l.2 = true := by
  induction ls generalizing kept w with
  | nil => exact ⟨isIdentifier_append hk hw, by simp [dropLinks]⟩
  | cons l ls ih =>
    obtain ⟨optional, v⟩ := l
    obtain ⟨hv, hrest⟩ := List.forall_mem_cons.1 hls
    rw [dropLinks]
    split
    · rename_i u hu
      have hdrop : beforeProps? none w = some u := by
        split at hu
        · cases hu
        · exact hu
      obtain ⟨rfl, -⟩ := beforeProps?_some hdrop
      refine ih ?_ hv hrest
      rcases isIdentifier_of_append hw with rfl | hu
      · simpa using hk
      · exact .inr (isIdentifier_append hk hu)
    · exact ⟨isIdentifier_append hk hw, List.forall_mem_cons.2 (ih (.inl rfl) hv hrest)⟩

def namesLength (w : List Char) : List (Bool × List Char) → Nat
  | [] => w.length
  | l :: ls => w.length + (1 + namesLength l.2 ls)

theorem namesLength_append (u w : List Char) (ls : List (Bool × List Char)) :
    namesLength (u ++ w) ls = u.length + namesLength w ls := by
  cases ls <;> simp only [namesLength, List.length_append, Nat.add_assoc]

theorem length_linkedText_cons (w : List Char) (l : Bool × List Char) (ls : List (Bool × List Char)) :
    (linkedText w (l :: ls)).length = w.length + ((if l.1 then 2 else 1) + (linkedText l.2 ls).length) := by
  obtain ⟨optional, v⟩ := l
  cases optional with
  | true => simp [linkedText_link]; omega
  | false => simp [linkedText_dot]; omega

/-- A path stays as it is or gets shorter, also where all links count alike. -/
theorem dropLinks_shorter (kept w : List Char) (ls : List (Bool × List Char)) :
    dropLinks kept w ls = (kept ++ w, ls) ∨
      namesLength (dropLinks kept w ls).1 (dropLinks kept w ls).2 < kept.length + namesLength w ls ∧
        (linkedText (dropLinks kept w ls).1 (dropLinks kept w ls).2).length <
          kept.length + (linkedText w ls).length := by
  induction ls generalizing kept w with
  | nil => exact .inl rfl
  | cons l ls ih =>
    obtain ⟨optional, v⟩ := l
    rw [dropLinks, namesLength, length_linkedText_cons]
    split
    · rename_i u hu
      have hdrop : optional = false ∧ beforeProps? none w = some u := by
        cases optional with
        | true => cases hu
        | false => exact ⟨rfl, hu⟩
      obtain ⟨rfl, hdrop⟩ := hdrop
      have hlen : w.length = u.length + 5 := by
        rw [(beforeProps?_some hdrop).1]
        exact List.length_append
      right
      rcases ih (kept ++ u) v with he | ⟨hnames, htext⟩
      · rw [he]
        simp only [namesLength_append, linkedText, List.length_append, Bool.false_eq_true, if_false]
        omega
      · simp only [List.length_append, Bool.false_eq_true, if_false] at hnames htext ⊢
        omega
    · rcases ih [] v with he | ⟨hnames, htext⟩
      · exact .inl (by rw [he]; rfl)
      · right
        rw [namesLength, length_linkedText_cons]
        simp only [List.length_append, List.length_nil] at hnames htext ⊢
        omega

theorem prefix_dropLinks (kept w : List Char) (ls : List (Bool × List Char)) :
    kept <+: (dropLinks kept w ls).1 := by
  induction ls generalizing kept w with
  | nil => exact List.prefix_append _ _
  | cons l ls ih =>
    rw [dropLinks]
    split
    · exact (List.prefix_append _ _).trans (ih _ _)
    · exact List.prefix_append _ _

/-- The first name loses something only behind a dollar sign. -/
theorem head_dropLinks (hw : isIdentifier w = true) (hprops : w = "props".toList → ls = []) :
    (dropLinks [] w ls).1 = w ∨ ('$' ∈ w ∧ '$' ∈ (dropLinks [] w ls).1) := by
  cases ls with
  | nil => exact .inl rfl
  | cons l ls =>
    obtain ⟨optional, v⟩ := l
    rw [dropLinks]
    split
    · rename_i u hu
      right
      have hdrop : beforeProps? none w = some u := by
        split at hu
        · cases hu
        · exact hu
      obtain ⟨rfl, hlast⟩ := beforeProps?_some hdrop
      have hne : u ≠ [] := by
        rintro rfl
        cases hprops rfl
      rw [List.getLast?_eq_some_getLast hne] at hlast
      have hmem := List.getLast_mem hne
      have hname := isWord_of_isIdentifierChar
        (isIdentifierChar_of_mem hw (List.mem_append_left _ hmem))
      have hword : isWord (u.getLast hne) = false := hlast
      rw [hword, Bool.false_or, beq_iff_eq] at hname
      rw [hname] at hmem
      exact ⟨List.mem_append_left _ hmem, (prefix_dropLinks _ _ _).subset hmem⟩
    · exact .inl rfl

/-! ### Leading names -/

def behindProps (w : List Char) : List (Bool × List Char) → List Char × List (Bool × List Char)
  | [] => (w, [])
  | l :: ls => if w = "props".toList then behindProps l.2 ls else (w, l :: ls)

theorem behindProps_names (hw : isIdentifier w = true) (hls : ∀ l ∈ ls, isIdentifier l.2 = true) :
    isIdentifier (behindProps w ls).1 = true ∧ ∀ l ∈ (behindProps w ls).2, isIdentifier l.2 = true := by
  induction ls generalizing w with
  | nil => exact ⟨hw, hls⟩
  | cons l ls ih =>
    obtain ⟨hl, hrest⟩ := List.forall_mem_cons.1 hls
    rw [behindProps]
    split
    · exact ih hl hrest
    · exact ⟨hw, hls⟩

theorem behindProps_self (h : w = "props".toList → ls = []) : behindProps w ls = (w, ls) := by
  cases ls with
  | nil => rfl
  | cons l ls =>
    rw [behindProps, if_neg fun hw => ?_]
    cases h hw

theorem behindProps_head (w : List Char) (ls : List (Bool × List Char)) :
    (behindProps w ls).1 = "props".toList → (behindProps w ls).2 = [] := by
  induction ls generalizing w with
  | nil => exact fun _ => rfl
  | cons l ls ih =>
    rw [behindProps]
    split
    · exact ih l.2
    · rename_i hw
      exact fun he => absurd he hw

/-- The names at the front go or, in front of an optional link, stay; behind them all others go. -/
theorem exists_stripped (hw : isIdentifier w = true) (hls : ∀ l ∈ ls, isIdentifier l.2 = true) :
    ∃ w' ls', (isIdentifier w' = true ∧ ∀ l ∈ ls', isIdentifier l.2 = true) ∧
      stripProps (linkedText w ls) = linkedText w' ls' ∧
        behindProps w' ls' = dropLinks [] (behindProps w ls).1 (behindProps w ls).2 := by
  induction ls generalizing w with
  | nil => exact ⟨w, [], ⟨hw, hls⟩, stripProps_linkedText hw hls [], rfl⟩
  | cons l ls ih =>
    obtain ⟨optional, v⟩ := l
    obtain ⟨hv, hrest⟩ := List.forall_mem_cons.1 hls
    by_cases hprops : w = "props".toList
    · obtain ⟨w', ls', hnames, htext, hbehind⟩ := ih hv hrest
      rw [behindProps, if_pos hprops]
      cases optional with
      | false =>
        refine ⟨w', ls', hnames, ?_, hbehind⟩
        rw [linkedText_dot, hprops, ← htext]
        have hdropped : dropPropsFrom 0 none (propsHead ++ linkedText v ls) = stripProps (linkedText v ls) :=
          dropPropsFrom_head rfl _
        exact hdropped
      | true =>
        refine ⟨w, (true, w') :: ls', ⟨hw, List.forall_mem_cons.2 hnames⟩, ?_, ?_⟩
        · rw [linkedText_link, linkedText_link, dropPropsFrom_link hw, htext]
        · rw [behindProps, if_pos hprops, hbehind]
    · have hself : behindProps w ((optional, v) :: ls) = (w, (optional, v) :: ls) :=
        behindProps_self fun he => absurd he hprops
      rw [hself]
      refine ⟨_, _, dropLinks_names (.inl rfl) hw hls, stripProps_linkedText hw hls [], ?_⟩
      refine behindProps_self fun he => ?_
      have hhead : (dropLinks [] w ((optional, v) :: ls)).1 = w ∨
          ('$' ∈ w ∧ '$' ∈ (dropLinks [] w ((optional, v) :: ls)).1) :=
        head_dropLinks hw fun he => absurd he hprops
      rcases hhead with hhead | ⟨-, hdollar⟩
      · exact absurd (hhead.symm.trans he) hprops
      · rw [he] at hdollar
        exact absurd hdollar (by decide)

end

namespace Code.MemberPath

def core (p : MemberPath) : MemberPath where
  head := (behindProps p.head p.links).1
  links := (behindProps p.head p.links).2
  head_name := (behindProps_names p.head_name p.links_names).1
  links_names := (behindProps_names p.head_name p.links_names).2

/-- Dropping `props.` leaves a path. Its core is the same, or it is shorter and begins with the same name
or, like before, with one that has a dollar sign. -/
theorem exists_stripped (p : MemberPath) :
    ∃ p' : MemberPath, p'.text = stripProps p.text ∧
      ((stripProps p.core.text = p.core.text ∧ p'.core = p.core) ∨
        (stripProps p.core.text ≠ p.core.text ∧
          namesLength p'.core.head p'.core.links < namesLength p.core.head p.core.links ∧
          (p'.core.head = p.core.head ∨ ('$' ∈ p.core.head ∧ '$' ∈ p'.core.head)))) := by
  obtain ⟨w', ls', hnames, htext, hbehind⟩ := JsxToJinja.exists_stripped p.head_name p.links_names
  obtain ⟨p', rfl, rfl⟩ : ∃ p' : MemberPath, p'.head = w' ∧ p'.links = ls' :=
    ⟨⟨w', ls', hnames.1, hnames.2⟩, rfl, rfl⟩
  obtain ⟨hfirst, hlinks⟩ : p'.core.head = (dropLinks [] p.core.head p.core.links).1 ∧
      p'.core.links = (dropLinks [] p.core.head p.core.links).2 := Prod.ext_iff.1 hbehind
  have hcore : stripProps p.core.text = linkedText p'.core.head p'.core.links := by
    rw [hfirst, hlinks]
    exact stripProps_linkedText p.core.head_name p.core.links_names []
  refine ⟨p', htext.symm, ?_⟩
  rcases dropLinks_shorter [] p.core.head p.core.links with he | ⟨hshort, hlen⟩
  · rw [he] at hfirst hlinks
    refine .inl ⟨?_, ?_⟩
    · rw [hcore, hfirst, hlinks]
      rfl
    · rw [core, core, mk.injEq]
      exact ⟨hfirst, hlinks⟩
  · rw [← hfirst, ← hlinks, List.length_nil, Nat.zero_add] at hshort hlen
    refine .inr ⟨fun hsame => ?_, hshort, ?_⟩
    · rw [← hcore, hsame] at hlen
      exact Nat.lt_irrefl _ hlen
    · rw [hfirst]
      exact head_dropLinks p.core.head_name (behindProps_head p.head p.links)

end Code.MemberPath

end JsxToJinja
