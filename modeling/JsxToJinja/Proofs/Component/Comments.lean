import JsxToJinja.Proofs.Component.Declarations
import JsxToJinja.Proofs.Component.TypeResolution

/-! Comments between the members of interfaces. Where they leave the braces of the bodies and the
heads of the interfaces alone, nothing but descriptions depends on them. -/
namespace JsxToJinja
open JsxToJinja.Text JsxToJinja.Code

/-! ### Scopes up to descriptions -/

def Attribute.plain (a : Attribute) : Attribute := { a with description := none }

namespace Member

def plain (m : Member) : Member := { m with description := none }

/-- Adding a member and leaving descriptions out can be exchanged. -/
theorem plain_put (ms : List Member) (m : Member) :
    (put ms m).map plain = put (ms.map plain) m.plain := by
  have hany : (ms.map plain).any (·.name == m.plain.name) = ms.any (·.name == m.name) := by
    rw [List.any_map]
    rfl
  rw [put, put, hany]
  split
  · rw [List.map_map, List.map_map]
    congr 1
    funext o
    simp only [Function.comp_apply]
    split
    · rename_i ho
      exact (if_pos ho).symm
    · rename_i ho
      exact (if_neg ho).symm
  · simp

theorem plain_merge (ms more : List Member) :
    (merge ms more).map plain = merge (ms.map plain) (more.map plain) := by
  induction more generalizing ms with
  | nil => rfl
  | cons m more ih => rw [List.map_cons, merge_cons, merge_cons, ih, plain_put]

/-- What a wrapper does to members and leaving descriptions out can be exchanged. -/
theorem plain_wrapped {wrapper : List Char} {args : List (List Char)}
    {f : List Member → List Member} (h : wrapped? wrapper args = some f) (ms : List Member) :
    (f ms).map plain = f (ms.map plain) := by
  have hfilter (p : Member → Bool) (hp : ∀ m, p m.plain = p m) :
      (ms.filter p).map plain = (ms.map plain).filter p := by
    rw [List.filter_map]
    congr 2
    exact funext fun m => (hp m).symm
  have hmap (o : Bool) : (ms.map fun m => { m with optional := o }).map plain =
      (ms.map plain).map fun m => { m with optional := o } := by
    rw [List.map_map, List.map_map]
    rfl
  rw [wrapped?] at h
  dsimp only at h
  split at h
  · cases h
    exact hfilter _ fun m => rfl
  split at h
  · cases h
    exact hfilter _ fun m => rfl
  split at h
  · cases h
    exact hmap true
  split at h
  · cases h
    exact hmap false
  · cases h

end Member

def TypeDecl.plain : TypeDecl → TypeDecl
  | .interface parents members => .interface parents (members.map Member.plain)
  | .synonym type => .synonym type

theorem TypeDecl.supers_plain (d : TypeDecl) : d.plain.supers = d.supers := by cases d <;> rfl

theorem TypeDecl.own_plain (d : TypeDecl) : d.plain.own = d.own.map Member.plain := by
  cases d <;> rfl

namespace TypeScope

def plain (s : TypeScope) : TypeScope := ⟨s.decls.map fun d => (d.1, d.2.plain)⟩

theorem names_plain (s : TypeScope) : s.plain.names = s.names := by
  rw [names, names, plain, List.map_map]
  rfl

theorem get?_plain (s : TypeScope) (name : String) :
    s.plain.get? name = (s.get? name).map TypeDecl.plain := by
  rw [get?, get?, plain, List.find?_map, Option.map_map, Option.map_map]
  rfl

theorem plain_insert (s : TypeScope) (name : String) (d : TypeDecl) :
    (s.insert name d).plain = s.plain.insert name d.plain := by
  have hany : s.plain.decls.any (·.1 == name) = s.decls.any (·.1 == name) := by
    rw [plain, List.any_map]
    rfl
  rw [insert, insert, hany]
  split
  · simp only [plain, List.map_map]
    congr 2
    funext o
    simp only [Function.comp_apply]
    split <;> rfl
  · simp [plain]

variable {s s' : TypeScope}

/-- Scopes that differ in descriptions give members that differ in descriptions. -/
theorem membersFrom_plain (h : s.plain = s'.plain) (fuel : Nat) (visiting : List (List Char))
    (type : List Char) : (s.membersFrom fuel visiting type).map Member.plain =
      (s'.membersFrom fuel visiting type).map Member.plain := by
  induction fuel generalizing visiting type with
  | zero => rfl
  | succ fuel ih =>
    rw [membersFrom_succ, membersFrom_succ]
    cases TypeForm.of type with
    | object body => rfl
    | generic wrapper args =>
      cases args with
      | nil => rfl
      | cons target more =>
        dsimp only
        cases hw : wrapped? wrapper (target :: more) with
        | none => exact ih _ _
        | some f =>
          dsimp only
          rw [Member.plain_wrapped hw, Member.plain_wrapped hw, ih]
    | named name =>
      dsimp only
      split
      · rfl
      have hfold (types : List (List Char)) (acc acc' : List Member)
          (hacc : acc.map Member.plain = acc'.map Member.plain) :
          (types.foldl (fun acc p => Member.merge acc
            (s.membersFrom fuel (name :: visiting) p)) acc).map Member.plain =
          (types.foldl (fun acc p => Member.merge acc
            (s'.membersFrom fuel (name :: visiting) p)) acc').map Member.plain := by
        induction types generalizing acc acc' with
        | nil => exact hacc
        | cons p types iht =>
          refine iht _ _ ?_
          rw [Member.plain_merge, Member.plain_merge, hacc, ih]
      have hget := s.get?_plain (String.ofList name)
      rw [h, get?_plain] at hget
      cases hs : s.get? (String.ofList name) with
      | none =>
        rw [hs, Option.map_none, Option.map_eq_none_iff] at hget
        rw [hget]
      | some d =>
        rw [hs, Option.map_some, Option.map_eq_some_iff] at hget
        obtain ⟨d', hs', hd⟩ := hget
        rw [hs']
        dsimp only
        rw [Member.plain_merge, Member.plain_merge, ← d.own_plain, ← d'.own_plain, hd,
          ← d.supers_plain, ← d'.supers_plain, hd, hfold _ _ _ rfl]

theorem membersOf_plain (h : s.plain = s'.plain) (type : List Char) :
    (s.membersOf type).map Member.plain = (s'.membersOf type).map Member.plain := by
  have hbound (s : TypeScope) : s.stepBound type = s.plain.stepBound type := by
    have hlong (d : TypeDecl) : declLength d.plain = declLength d := by cases d <;> rfl
    simp only [stepBound, plain, List.length_map, List.foldl_map, hlong]
  rw [membersOf, membersOf, hbound s, hbound s', h]
  exact membersFrom_plain h _ _ _

theorem classify_plain (h : s.plain = s'.plain) (depth : Nat) :
    s.classify depth = s'.classify depth := by
  have hnamed (info : TypeInfo) (behind : Option (List Char → TypeInfo)) (found : Option TypeDecl) :
      info.addNamed behind found = info.addNamed behind (found.map TypeDecl.plain) := by
    obtain _ | ⟨_ | _⟩ := found <;> rfl
  have hpart : s.addPart = s'.addPart := by
    funext behind info part
    rw [addPart, addPart, hnamed, ← get?_plain, h, get?_plain, ← hnamed]
  have hwith : s.classifyWith = s'.classifyWith := by
    funext behind type
    rw [classifyWith, classifyWith, hpart]
  induction depth with
  | zero => rw [classify, classify, hwith]
  | succ depth ih => rw [classify, classify, hwith, ih]

theorem describe_plain (h : s.plain = s'.plain) {m m' : Member} (hm : m.plain = m'.plain) :
    (s.describe m).plain = (s'.describe m').plain := by
  have hname : m.name = m'.name := congrArg (·.name) hm
  have hoptional : m.optional = m'.optional := congrArg (·.optional) hm
  have htype : m.type = m'.type := congrArg (·.type) hm
  simp only [describe, Attribute.plain, classify_plain h, hname, hoptional, htype]

theorem attributesOf_plain (h : s.plain = s'.plain) (name : String) :
    (s.attributesOf name).map Attribute.plain = (s'.attributesOf name).map Attribute.plain := by
  have hplain (s : TypeScope) (h : s.plain = s'.plain) : (s.attributesOf name).map Attribute.plain =
      ((s.membersOf name.toList).map Member.plain).map fun m => (s'.describe m).plain := by
    rw [attributesOf, List.map_map, List.map_map]
    exact List.map_congr_left fun m _ => describe_plain h rfl
  rw [hplain s h, hplain s' rfl, membersOf_plain h]

end TypeScope

/-! ### Members and comments between them -/

def Gap.line : Gap := ⟨['\n'], fun c hc => by rw [List.mem_singleton.1 hc]; decide⟩

/-- What a member is written as, from its first character on. -/
structure MemberText where
  head : Char
  rest : List Char
  blank : isBlank head = false
  starts : head ∉ '/' :: Member.continues

namespace MemberText

def text (m : MemberText) : List Char := m.head :: m.rest

def member? (m : MemberText) : Option Member := Member.parse? (trim m.text) none

/-- The description is all that a comment decides. -/
theorem plain_parse? (m : MemberText) (doc : Option String) :
    (Member.parse? (trim m.text) doc).toList.map Member.plain = m.member?.toList := by
  have hparse (t : List Char) : (Member.parse? t doc).map Member.plain = Member.parse? t none := by
    simp only [Member.parse?]
    cases Member.head.find? t with
    | none => rfl
    | some found =>
      simp only [Option.bind_eq_bind, Option.bind_some]
      cases ((found.text? t 1).or (found.text? t 2)).or (found.text? t 3) <;> rfl
  rw [member?, ← hparse]
  cases Member.parse? (trim m.text) doc <;> rfl

theorem not_comment (m : MemberText) (t : List Char) (c : Char) :
    startsWith (m.text ++ t) ['/', c] = false := by
  refine startsWith_of_head (fun hc => ?_) [c]
  have hslash : m.head = '/' := by simpa [text] using hc
  exact m.starts (by simp [hslash])

theorem round_ended (m : MemberText) {sep : Char}
    (hends : Member.stop? (m.text ++ [sep]) = some m.text.length) {rest : List Char}
    (hrest : ∀ c ∈ (trimStart rest).head?, c ∉ Member.continues) (doc : Option String) :
    Member.round doc (m.text ++ sep :: rest) =
      some ((Member.parse? (trim m.text) doc).toList, none, rest) := by
  have hstart : trimStart (m.text ++ sep :: rest) = m.text ++ sep :: rest :=
    trimStart_append_cons blank_nil m.blank _
  have hstop := Member.stop?_append hends fun _ => hrest
  rw [Member.round, hstart]
  dsimp only
  rw [if_neg (by simp [text]), if_neg (ne_true_of_eq_false (m.not_comment _ _)),
    if_neg (ne_true_of_eq_false (m.not_comment _ _)), hstop, Option.getD_some, List.take_left]
  simp

theorem round_last (m : MemberText) (hends : Member.stop? m.text = none) (doc : Option String) :
    Member.round doc m.text = some ((Member.parse? (trim m.text) doc).toList, none, []) := by
  have hstart : trimStart m.text = m.text := by
    have := trimStart_append_cons blank_nil m.blank m.rest
    exact this
  have hcomment (c : Char) : startsWith m.text ['/', c] = false := by
    have := m.not_comment [] c
    rwa [List.append_nil] at this
  rw [Member.round, hstart]
  dsimp only
  rw [if_neg (by simp [text]), if_neg (ne_true_of_eq_false (hcomment _)),
    if_neg (ne_true_of_eq_false (hcomment _)), hends, Option.getD_none, List.take_length]
  simp

end MemberText

/-- A part of the body of an interface. Comments are slots for a text. -/
inductive BodyPart (κ : Type) where
  | member (m : MemberText) (sep : Char)
      (ends : Member.stop? (m.text ++ [sep]) = some m.text.length)
  | doc (slot : κ)
  | line (slot : κ)

/-- The body of an interface: parts with the gaps before them, and a last member that nothing ends. -/
structure Body (κ : Type) where
  parts : List (Gap × BodyPart κ)
  gap : Gap
  last : Option { m : MemberText // Member.stop? m.text = none }

variable {κ : Type}

namespace BodyPart

def print (f : κ → List Char) : BodyPart κ → List Char
  | member m sep _ => m.text ++ [sep]
  | doc slot => "/**".toList ++ (f slot ++ "*/".toList)
  | line slot => "//".toList ++ (f slot ++ ['\n'])

/-- The text of a comment does not end it. -/
def Fits (f : κ → List Char) : BodyPart κ → Prop
  | member _ _ _ => True
  | doc slot => ¬ "*/".toList <:+: '*' :: f slot
  | line slot => '\n' ∉ f slot

def members : BodyPart κ → List Member
  | member m _ _ => m.member?.toList
  | _ => []

/-- Two characters are found where they first stand side by side. -/
theorem find?_pair {a b : Char} (hab : a ≠ b) {w : List Char} (h : ¬ [a, b] <:+: w)
    (rest : List Char) : find? [a, b] (w ++ a :: b :: rest) = some w.length := by
  induction w with
  | nil => simp [find?, startsWith]
  | cons c w ih =>
    rw [List.infix_cons_iff, not_or] at h
    have hhere : startsWith (c :: (w ++ a :: b :: rest)) [a, b] = false := by
      rw [← Bool.not_eq_true, startsWith, List.isPrefixOf_iff_prefix]
      intro hpre
      obtain ⟨rfl, hnext⟩ := List.cons_prefix_cons.1 hpre
      cases w with
      | nil => exact hab (List.cons_prefix_cons.1 hnext).1.symm
      | cons d w =>
        obtain ⟨rfl, -⟩ := List.cons_prefix_cons.1 hnext
        exact h.1 (by simp)
    rw [List.cons_append, find?, if_neg (ne_true_of_eq_false hhere), ih h.2]
    rfl

/-- A comment gives no member, whatever it says. -/
theorem round_doc {c : List Char} (h : ¬ "*/".toList <:+: '*' :: c) (doc : Option String)
    (rest : List Char) : ∃ doc', Member.round doc ("/**".toList ++ (c ++ "*/".toList) ++ rest) =
      some ([], doc', rest) := by
  let comment := '/' :: '*' :: '*' :: c
  have hshape : "/**".toList ++ (c ++ "*/".toList) ++ rest = comment ++ '*' :: '/' :: rest := by
    simp [comment]
  have hinfix : ¬ ['*', '/'] <:+: comment := by
    simp only [comment]
    rw [List.infix_cons_iff, List.infix_cons_iff, not_or, not_or]
    exact ⟨by simp, by simp, h⟩
  have hstart : trimStart (comment ++ '*' :: '/' :: rest) = comment ++ '*' :: '/' :: rest :=
    trimStart_append_cons blank_nil (by decide) _
  have hopen : startsWith (comment ++ '*' :: '/' :: rest) ['/', '*'] = true :=
    startsWith_append_self ['/', '*'] _
  refine ⟨Member.description? ((comment ++ '*' :: '/' :: rest).take (comment.length + 2)), ?_⟩
  rw [hshape, Member.round, hstart]
  dsimp only
  rw [if_neg (by simp [comment]), if_pos hopen, find?_pair (by decide) hinfix, Option.map_some,
    Option.getD_some, ← List.drop_drop, List.drop_left]
  rfl

/-- A line comment is passed over up to its line break, and a description goes on waiting. -/
theorem round_line {c : List Char} (h : '\n' ∉ c) (doc : Option String) (rest : List Char) :
    Member.round doc ("//".toList ++ (c ++ ['\n']) ++ rest) = some ([], doc, '\n' :: rest) := by
  have hshape : "//".toList ++ (c ++ ['\n']) ++ rest = '/' :: '/' :: (c ++ '\n' :: rest) := by simp
  have hstart : trimStart ('/' :: '/' :: (c ++ '\n' :: rest)) = '/' :: '/' :: (c ++ '\n' :: rest) :=
    trimStart_append_cons blank_nil (by decide) _
  have hblock : startsWith ('/' :: '/' :: (c ++ '\n' :: rest)) ['/', '*'] = false := rfl
  have hopen : startsWith ('/' :: '/' :: (c ++ '\n' :: rest)) ['/', '/'] = true := rfl
  have hdrop : ('/' :: '/' :: (c ++ '\n' :: rest)).dropWhile (· != '\n') = '\n' :: rest := by
    have hall : ∀ d ∈ '/' :: '/' :: c, (d != '\n') = true := by
      intro d hd
      rw [bne_iff_ne]
      rintro rfl
      simp [h] at hd
    have hpass : ('/' :: '/' :: c ++ '\n' :: rest).dropWhile (· != '\n') =
        ('\n' :: rest).dropWhile (· != '\n') := List.dropWhile_append_of_pos hall
    simpa using hpass
  rw [hshape, Member.round, hstart]
  dsimp only
  rw [if_neg (by simp), if_neg (ne_true_of_eq_false hblock), if_pos hopen, hdrop]

end BodyPart

namespace Body

def printFrom (b : Body κ) (f : κ → List Char) (parts : List (Gap × BodyPart κ)) : List Char :=
  parts.foldr (fun p rest => p.1.chars ++ (p.2.print f ++ rest))
    (b.gap.chars ++ b.last.elim [] (·.1.text))

def print (b : Body κ) (f : κ → List Char) : List Char := b.printFrom f b.parts

def members (b : Body κ) : List Member :=
  b.parts.flatMap (·.2.members) ++ b.last.elim [] (·.1.member?.toList)

/-- What follows a member does not continue its type. -/
theorem head_printFrom (b : Body κ) (f : κ → List Char) (parts : List (Gap × BodyPart κ)) :
    ∀ c ∈ (trimStart (b.printFrom f parts)).head?, c ∉ Member.continues := by
  have hmember (m : MemberText) (g : Gap) (t : List Char) :
      ∀ c ∈ (trimStart (g.chars ++ (m.text ++ t))).head?, c ∉ Member.continues := by
    have hstart : trimStart (g.chars ++ (m.text ++ t)) = m.text ++ t :=
      trimStart_append_cons g.blank m.blank _
    rw [hstart]
    rintro c hc hcont
    obtain rfl : m.head = c := by simpa [MemberText.text] using hc
    exact m.starts (List.mem_cons_of_mem _ hcont)
  have hslash (g : Gap) (t : List Char) :
      ∀ c ∈ (trimStart (g.chars ++ '/' :: t)).head?, c ∉ Member.continues := by
    rw [trimStart_append_cons g.blank (by decide)]
    simp [Member.continues]
  cases parts with
  | nil =>
    rw [printFrom, List.foldr_nil]
    cases b.last with
    | none =>
      rw [Option.elim_none, List.append_nil, b.gap.blank.trimStart]
      simp
    | some m =>
      have := hmember m.1 b.gap []
      rwa [List.append_nil] at this
  | cons p parts =>
    obtain ⟨g, part⟩ := p
    cases part with
    | member m sep ends =>
      have := hmember m g (sep :: b.printFrom f parts)
      simpa [printFrom, BodyPart.print] using this
    | doc slot => exact hslash g _
    | line slot => exact hslash g _

/-- Reading a body gives its members, and comments decide about nothing but descriptions. -/
theorem reads_printFrom (b : Body κ) {f : κ → List Char} {parts : List (Gap × BodyPart κ)}
    (hfits : ∀ p ∈ parts, p.2.Fits f) (doc : Option String) :
    ∃ ms, Member.Reads doc (b.printFrom f parts) ms ∧
      ms.map Member.plain =
        parts.flatMap (·.2.members) ++ b.last.elim [] (·.1.member?.toList) := by
  induction parts generalizing doc with
  | nil =>
    cases hlast : b.last with
    | none =>
      refine ⟨[], ?_, rfl⟩
      rw [printFrom, List.foldr_nil, hlast]
      exact .append b.gap.blank (.done rfl)
    | some m =>
      refine ⟨(Member.parse? (trim m.1.text) doc).toList ++ [], ?_, ?_⟩
      · rw [printFrom, List.foldr_nil, hlast]
        exact .append b.gap.blank (.next (m.1.round_last m.2 doc) (.done rfl))
      · rw [List.append_nil, m.1.plain_parse?]
        rfl
  | cons p parts ih =>
    obtain ⟨g, part⟩ := p
    have hrest := fun p hp => hfits p (List.mem_cons_of_mem _ hp)
    have hpart : part.Fits f := hfits (g, part) (by simp)
    rw [List.flatMap_cons]
    cases part with
    | member m sep ends =>
      obtain ⟨ms, hms, hplain⟩ := ih hrest none
      refine ⟨(Member.parse? (trim m.text) doc).toList ++ ms, .append g.blank ?_, ?_⟩
      · have hround := m.round_ended ends (b.head_printFrom f parts) doc
        simp only [BodyPart.print, List.append_assoc, List.singleton_append]
        exact .next hround hms
      · rw [List.map_append, m.plain_parse?, hplain, List.append_assoc]
        rfl
    | doc slot =>
      obtain ⟨doc', hround⟩ := BodyPart.round_doc hpart doc (b.printFrom f parts)
      obtain ⟨ms, hms, hplain⟩ := ih hrest doc'
      exact ⟨ms, .append g.blank (.next hround hms), hplain⟩
    | line slot =>
      obtain ⟨ms, hms, hplain⟩ := ih hrest doc
      have hround := BodyPart.round_line hpart doc (b.printFrom f parts)
      exact ⟨ms, .append g.blank (.next hround (hms.append Gap.line.blank)), hplain⟩

theorem plain_parseAll (b : Body κ) {f : κ → List Char} (hfits : ∀ p ∈ b.parts, p.2.Fits f) :
    (Member.parseAll (b.print f)).map Member.plain = b.members := by
  obtain ⟨ms, hms, hplain⟩ := b.reads_printFrom hfits none
  rw [print, ← Member.reads_iff.1 hms, hplain, members]

end Body

/-! ### Interfaces with comments -/

/-- An interface whose comments are slots, with what follows up to the next one. -/
structure Commented (κ : Type) where
  head : InterfaceHead
  body : Body κ
  after : List Char

namespace Commented

def fill (f : κ → List Char) (d : Commented κ) : Declaration := ⟨d.head, d.body.print f, d.after⟩

def source (front : List Char) (ds : List (Commented κ)) (f : κ → List Char) : List Char :=
  front ++ Declaration.texts (ds.map (fill f)) []

/-- No comment ends early, each body is closed by its own brace and nothing between the heads spells
the head of a declaration. -/
structure Fits (front : List Char) (ds : List (Commented κ)) (f : κ → List Char) : Prop where
  comments : ∀ d ∈ ds, ∀ p ∈ d.body.parts, p.2.Fits f
  before : TypeScope.interfaceHead.Misses none front (Declaration.texts (ds.map (fill f)) [])
  apart : Declaration.Apart front.getLast? (ds.map (fill f)) []
  noAlias : TypeScope.aliasHead.findAll (source front ds f) = []

variable {front : List Char} {ds : List (Commented κ)} {f g : κ → List Char}

theorem Fits.parse_source (h : Fits front ds f) :
    TypeScope.parse (source front ds f) = Declaration.scope (ds.map (fill f)) :=
  Declaration.parse_interfaces h.before h.apart h.noAlias

theorem plain_scope (ds : List Declaration) :
    (Declaration.scope ds).plain = ds.foldl (fun s d => s.insert d.name d.decl.plain) {} := by
  have hfrom (s : TypeScope) :
      (ds.foldl (fun s d => s.insert d.name d.decl) s).plain =
        ds.foldl (fun s d => s.insert d.name d.decl.plain) s.plain := by
    induction ds generalizing s with
    | nil => rfl
    | cons d ds ih => rw [List.foldl_cons, List.foldl_cons, ih, TypeScope.plain_insert]
  exact hfrom {}

/-- Up to descriptions a declaration is the same whatever its comments say. -/
theorem Fits.plain_decl (h : Fits front ds f) {d : Commented κ} (hd : d ∈ ds) :
    (d.fill f).decl.plain =
      .interface ((d.head.parents.map (splitTopLevel ·.text [','])).getD []) d.body.members := by
  rw [Declaration.decl, TypeDecl.plain, fill, d.body.plain_parseAll (h.comments d hd)]

theorem Fits.plain_parse (hf : Fits front ds f) (hg : Fits front ds g) :
    (TypeScope.parse (source front ds f)).plain = (TypeScope.parse (source front ds g)).plain := by
  rw [hf.parse_source, hg.parse_source, plain_scope, plain_scope, List.foldl_map, List.foldl_map]
  have hsame (s : TypeScope) (d : Commented κ) (hd : d ∈ ds) :
      s.insert (d.fill f).name (d.fill f).decl.plain =
        s.insert (d.fill g).name (d.fill g).decl.plain := by
    rw [hf.plain_decl hd, hg.plain_decl hd]
    rfl
  exact List.foldl_ext _ _ _ hsame

/-- Every declaration of a file is known by name. -/
theorem mem_names_scope {ds : List Declaration} {d : Declaration} (h : d ∈ ds) :
    d.name ∈ (Declaration.scope ds).names := by
  have hinsert (s : TypeScope) (e : Declaration) (hs : d = e ∨ d.name ∈ s.names) :
      d.name ∈ (s.insert e.name e.decl).names := by
    rw [TypeScope.names_insert]
    split
    · rename_i he
      rcases hs with rfl | hs
      · exact he
      · exact hs
    · rcases hs with rfl | hs
      · simp
      · simp [hs]
  have hfrom (s : TypeScope) (hs : d ∈ ds ∨ d.name ∈ s.names) :
      d.name ∈ (ds.foldl (fun s d => s.insert d.name d.decl) s).names := by
    clear h
    induction ds generalizing s with
    | nil => simpa using hs
    | cons e ds ih =>
      refine ih _ ?_
      rcases hs with hs | hs
      · rcases List.mem_cons.1 hs with he | hs
        · exact .inr (hinsert s e (.inl he))
        · exact .inl hs
      · exact .inr (hinsert s e (.inr hs))
  exact hfrom {} (.inl h)

/-- Comments that end where they should and leave the braces of the bodies and the heads of the
interfaces alone decide about nothing but descriptions: the declared names are those of the
interfaces, and their attributes differ in descriptions at most. -/
theorem comments_decide_descriptions_only (hf : Fits front ds f) (hg : Fits front ds g) :
    (TypeScope.parse (source front ds f)).names = (TypeScope.parse (source front ds g)).names ∧
      (∀ d ∈ ds, String.ofList d.head.name ∈ (TypeScope.parse (source front ds f)).names) ∧
      ∀ name, ((TypeScope.parse (source front ds f)).attributesOf name).map Attribute.plain =
        ((TypeScope.parse (source front ds g)).attributesOf name).map Attribute.plain := by
  have hplain := hf.plain_parse hg
  refine ⟨?_, fun d hd => ?_, TypeScope.attributesOf_plain hplain⟩
  · rw [← TypeScope.names_plain, hplain, TypeScope.names_plain]
  · rw [hf.parse_source]
    exact mem_names_scope (d := d.fill f) (List.mem_map_of_mem hd)

def note : Commented Unit where
  head := .simple ['P'] (by decide)
  body :=
    { parts :=
        [(.line, .doc ()), (.line, .member ⟨'a', ": string".toList, by decide, by decide⟩ ';'
          (by decide))]
      gap := .line
      last := none }
  after := []

theorem fits_note {c : List Char} (hcomment : ¬ "*/".toList <:+: '*' :: c)
    (hclosed : isGroup '\x7b' ('\x7b' :: (note.body.print (fun _ => c) ++ ['\x7d'])) = true)
    (hplain : Keyword.plain .interface (note.fill fun _ => c).inside [] = true)
    (halias : Keyword.plain .type (source [] [note] fun _ => c) [] = true) :
    Fits [] [note] fun _ => c where
  comments := by
    intro d hd p hp
    rw [List.mem_singleton.1 hd] at hp
    rcases List.mem_cons.1 hp with rfl | hp
    · exact hcomment
    · rw [List.mem_singleton.1 hp]
      trivial
  before := Keyword.misses_interface rfl _
  apart := ⟨hclosed, Keyword.misses_interface hplain _, Keyword.misses_interface rfl _⟩
  noAlias := Keyword.findAll_alias halias

/-- Two comments of which one has brackets. -/
theorem bracketed_comment_decides_description_only :
    Fits [] [note] (fun _ => " Do not use ".toList) ∧ Fits [] [note] (fun _ => " (Do use) ".toList) ∧
      ((TypeScope.parse (source [] [note] fun _ => " Do not use ".toList)).attributesOf "P").map
          Attribute.plain =
        ((TypeScope.parse (source [] [note] fun _ => " (Do use) ".toList)).attributesOf "P").map
          Attribute.plain := by
  have hf : Fits [] [note] fun _ => " Do not use ".toList :=
    fits_note (by decide +kernel) (by decide) (by decide) (by decide)
  have hg : Fits [] [note] fun _ => " (Do use) ".toList :=
    fits_note (by decide +kernel) (by decide) (by decide) (by decide)
  exact ⟨hf, hg, (comments_decide_descriptions_only hf hg).2.2 "P"⟩

/-- An apostrophe in a comment hides the brace that closes the interface. -/
theorem apostrophe_hides_interface :
    BodyPart.Fits (fun _ => " Do not use ".toList) (.doc ()) ∧
      BodyPart.Fits (fun _ => " Don't use ".toList) (.doc ()) ∧
      (TypeScope.parse (source [] [note] fun _ => " Do not use ".toList)).names = ["P"] ∧
      (TypeScope.parse (source [] [note] fun _ => " Don't use ".toList)).names = [] := by
  refine ⟨?_, ?_, by decide, by decide⟩
  all_goals
    rw [BodyPart.Fits]
    decide +kernel

end Commented

end JsxToJinja
