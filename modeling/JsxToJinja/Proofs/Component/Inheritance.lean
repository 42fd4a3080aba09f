import JsxToJinja.Proofs.Code.Expression
import JsxToJinja.Proofs.Component.Declarations
import JsxToJinja.Proofs.Component.TypeResolution
import JsxToJinja.Proofs.Component.TypeTexts

/-! Members picked from another interface, taken over by an alias or by an extends clause. The alias
takes them over; the extends clause is cut at the comma between the brackets and takes over none, so
the two agree just where the members of the body replace all of them in their places. -/
namespace JsxToJinja
open JsxToJinja.Text JsxToJinja.Code

/-! ### Look-ups -/

namespace TypeScope

/-- Replacing a declaration leaves the names where they are. -/
theorem find?_replaced (decls : List (String × TypeDecl)) (name : String) (decl : TypeDecl)
    (n : String) : (decls.map fun d => if d.1 == name then (name, decl) else d).find? (·.1 == n) =
      (decls.find? (·.1 == n)).map fun d => if d.1 == name then (name, decl) else d := by
  have hsame : ((·.1 == n) ∘ fun d : String × TypeDecl => if d.1 == name then (name, decl) else d) =
      (·.1 == n) := by
    funext d
    by_cases hd : d.1 = name <;> simp [hd]
  rw [List.find?_map, hsame]

theorem get?_insert_self (scope : TypeScope) (name : String) (decl : TypeDecl) :
    (scope.insert name decl).get? name = some decl := by
  rw [insert]
  split
  · rename_i hany
    have hsome : (scope.decls.find? (·.1 == name)).isSome = true := by
      rwa [List.find?_isSome, ← List.any_eq_true]
    obtain ⟨d, hd⟩ := Option.isSome_iff_exists.1 hsome
    have hfound : (d.1 == name) = true := by simpa using List.find?_some hd
    rw [get?, find?_replaced, hd, Option.map_some, if_pos hfound, Option.map_some]
  · rename_i hany
    have hnone : scope.decls.find? (·.1 == name) = none :=
      List.find?_eq_none.2 fun d hd hname => hany (List.any_eq_true.2 ⟨d, hd, hname⟩)
    rw [get?, List.find?_append, hnone]
    simp

theorem get?_insert_of_ne (scope : TypeScope) {name n : String} (h : n ≠ name) (decl : TypeDecl) :
    (scope.insert name decl).get? n = scope.get? n := by
  rw [insert]
  split
  · rw [get?, find?_replaced, get?]
    cases hf : scope.decls.find? (·.1 == n) with
    | none => rfl
    | some d =>
      have hd : d.1 = n := by simpa using List.find?_some hf
      simp [hd, h]
  · have hnew : [(name, decl)].find? (·.1 == n) = none := by simp [Ne.symm h]
    rw [get?, get?, List.find?_append, hnew, Option.or_none]

theorem get?_insert (scope : TypeScope) (name : String) (decl : TypeDecl) (n : String) :
    (scope.insert name decl).get? n = if n = name then some decl else scope.get? n := by
  split
  · rename_i h
    rw [h, get?_insert_self]
  · rename_i h
    exact scope.get?_insert_of_ne h decl

/-- A declaration under way gives what no declaration gives. -/
theorem Resolves.hidden {base scope : TypeScope} {x : List Char} {visiting : List (List Char)}
    {q : Query} {ms : List Member} (h : base.Resolves visiting q ms)
    (hx : base.get? (String.ofList x) = none)
    (hget : ∀ n, n ≠ x → scope.get? (String.ofList n) = base.get? (String.ofList n))
    {others : List (List Char)} (ho : ∀ n, n ∈ others ↔ n = x ∨ n ∈ visiting) :
    scope.Resolves others q ms := by
  induction h generalizing others with
  | object hf hr => exact .object hf hr
  | bare hf => exact .bare hf
  | wrapped hf hw _ ih => exact .wrapped hf hw (ih ho)
  | other hf hw _ _ ihu ih => exact .other hf hw (ihu ho) (ih ho)
  | again hf hin => exact .again hf ((ho _).2 (.inr hin))
  | @unknown _ _ name hf hv hg =>
    by_cases hn : name = x
    · exact .again hf ((ho _).2 (.inl hn))
    · refine .unknown hf ?_ ((hget _ hn).trans hg)
      rw [ho, not_or]
      exact ⟨hn, hv⟩
  | @declared _ _ name _ _ hf hv hg _ ih =>
    have hn : name ≠ x := by
      rintro rfl
      rw [hx] at hg
      cases hg
    refine .declared hf ?_ ((hget _ hn).trans hg) (ih fun n => ?_)
    · rw [ho, not_or]
      exact ⟨hn, hv⟩
    · rw [List.mem_cons, List.mem_cons, ho]
      exact or_left_comm
  | done => exact .done
  | next _ _ ih ihs => exact .next (ih ho) (ihs ho)

/-- A union of primitive types is described alike in every scope. -/
theorem describe_of_primitive (scope other : TypeScope) {m : Member}
    (h : ∀ p ∈ splitTopLevel (stripOuterParens m.type) ['|'],
      (primitive? (stripOuterParens p)).isSome = true) :
    scope.describe m = other.describe m := by
  have hpart (behind behind' : Option (List Char → TypeInfo)) (info : TypeInfo) (p : List Char)
      (hp : p ∈ splitTopLevel (stripOuterParens m.type) ['|']) :
      scope.addPart behind info p = other.addPart behind' info p := by
    obtain ⟨type, htype⟩ := Option.isSome_iff_exists.1 (h p hp)
    simp only [addPart, htype]
  have hclassify : scope.classify aliasDepth m.type = other.classify aliasDepth m.type := by
    simp only [aliasDepth, classify, classifyWith]
    split
    · rfl
    · exact List.foldl_ext _ _ _ (hpart _ _)
  rw [describe, describe, hclassify]

end TypeScope

/-! ### Picked members -/

/-- Which members a wrapper keeps: those that are not named, or those that are. -/
inductive Selection where
  | without
  | only

namespace Selection

def word : Selection → String
  | without => "Omit"
  | only => "Pick"

def keeps (s : Selection) (keys : List (List Char)) (m : Member) : Bool :=
  match s with
  | without => !keys.contains m.name.toList
  | only => keys.contains m.name.toList

theorem wrapped?_word (s : Selection) (args : List (List Char)) :
    wrapped? s.word.toList args = some (·.filter (s.keeps (TypeScope.keysOf args))) := by
  cases s <;> rfl

theorem isName_word (s : Selection) : isName s.word.toList = true := by cases s <;> decide

end Selection

/-- The quoted name of a member. -/
structure Key where
  name : List Char
  text : List Char
  quoted : Quoted name text
  plain : '<' ∉ text ∧ '\x7b' ∉ text

theorem exists_quotes {v t : List Char} (h : Quoted v t) :
    ∃ q b, isQuote q = true ∧ t = q :: (b ++ [q]) := by
  cases h with
  | @mk q b hq hs => exact ⟨q, b, by rcases hq with rfl | rfl <;> rfl, rfl⟩

namespace Key

def join (ks : List Key) : List Char := " | ".toList.intercalate (ks.map Key.text)

theorem join_edges (k : Key) (ks : List Key) :
    ∃ q b p, isQuote q = true ∧ isQuote p = true ∧ join (k :: ks) = q :: (b ++ [p]) := by
  induction ks generalizing k with
  | nil =>
    obtain ⟨q, b, hq, ht⟩ := exists_quotes k.quoted
    exact ⟨q, b, q, hq, hq, by simpa [join] using ht⟩
  | cons l ks ih =>
    obtain ⟨q, b, hq, ht⟩ := exists_quotes k.quoted
    obtain ⟨q', b', p, -, hp, hj⟩ := ih l
    refine ⟨q, b ++ q :: (" | ".toList ++ q' :: b'), p, hq, hp, ?_⟩
    have hcons : join (k :: l :: ks) = k.text ++ " | ".toList ++ join (l :: ks) :=
      List.intercalate_cons_cons
    rw [hcons, hj, ht]
    simp

theorem trimmed_join (k : Key) (ks : List Key) : Trimmed (join (k :: ks)) := by
  obtain ⟨q, b, p, hq, hp, hj⟩ := join_edges k ks
  rw [hj]
  exact trimmed_cons_concat (not_blank_of_isQuote hq) (not_blank_of_isQuote hp) b

theorem mem_join {ks : List Key} {c : Char} (h : c ∈ join ks) :
    c ∈ " | ".toList ∨ ∃ k ∈ ks, c ∈ k.text := by
  induction ks with
  | nil => cases h
  | cons k ks ih =>
    cases ks with
    | nil => exact .inr ⟨k, by simp, by simpa [join] using h⟩
    | cons l ks =>
      have hcons : join (k :: l :: ks) = k.text ++ " | ".toList ++ join (l :: ks) :=
        List.intercalate_cons_cons
      rw [hcons, List.mem_append, List.mem_append] at h
      rcases h with (h | h) | h
      · exact .inr ⟨k, by simp, h⟩
      · exact .inl h
      · exact (ih h).imp_right fun ⟨m, hm, hc⟩ => ⟨m, by simp [hm], hc⟩

theorem sealed_join {avoid : List Char} (ha : ∀ c ∈ avoid, c ∉ " | ".toList) (ks : List Key) :
    Sealed avoid (join ks) := by
  have hbar : Sealed avoid " | ".toList := by
    refine sealed_of_ordinary fun c hc => ⟨fun hm => ha c hm hc, ?_⟩
    revert c
    decide
  induction ks with
  | nil => exact .nil
  | cons k ks ih =>
    cases ks with
    | nil => simpa [join] using k.quoted.sealed
    | cons l ks =>
      have hcons : join (k :: l :: ks) = k.text ++ " | ".toList ++ join (l :: ks) :=
        List.intercalate_cons_cons
      rw [hcons]
      exact (k.quoted.sealed.append hbar).append ih

end Key

/-- An interface, a selection of its members by their names, and a declaration that adds members to
them. -/
structure Derivation where
  base : Declaration
  selection : Selection
  first : Key
  more : List Key
  name : List Char
  body : List Char
  named : isName name = true
  sealed : Sealed [] body
  own : name ≠ base.head.name
  wordless : base.head.name ≠ selection.word.toList ∧ name ≠ selection.word.toList

namespace Derivation

def keys (d : Derivation) : List Key := d.first :: d.more

def wrapped (d : Derivation) : List Char :=
  d.selection.word.toList ++ '<' :: (d.base.head.name ++ ", ".toList ++ Key.join d.keys ++ ['>'])

/-- The arguments of the wrapper. -/
theorem splitTopLevel_arguments (d : Derivation) :
    splitTopLevel (d.base.head.name ++ ", ".toList ++ Key.join d.keys) [','] =
      [d.base.head.name, Key.join d.keys] := by
  have hname := d.base.head.named
  have hjoin : d.base.head.name ++ ", ".toList ++ Key.join d.keys =
      ([] ++ ',' :: [' ']).intercalate [d.base.head.name, Key.join d.keys] := by simp
  rw [hjoin]
  refine splitTopLevel_spaced ⟨List.mem_singleton_self ',', by decide, by decide⟩ (by decide)
    blank_nil blank_space ?_
  intro r hr
  rcases List.mem_cons.1 hr with rfl | hr
  · refine ⟨sealed_of_isName hname (by decide), trimmed_of_isName hname, ?_⟩
    rintro hnil
    rw [hnil] at hname
    cases hname
  · rw [List.mem_singleton.1 hr]
    obtain ⟨q, b, p, -, -, hj⟩ := Key.join_edges d.first d.more
    exact ⟨Key.sealed_join (by decide) _, Key.trimmed_join _ _, by simp [keys, hj]⟩

theorem form_wrapped (d : Derivation) : TypeForm.of d.wrapped =
    .generic d.selection.word.toList [d.base.head.name, Key.join d.keys] := by
  have hword := d.selection.isName_word
  let inside := d.base.head.name ++ ", ".toList ++ Key.join d.keys
  have hhead : (d.wrapped.head? == some '\x7b') = false := by
    rw [wrapped]
    cases d.selection <;> rfl
  have hpath : isMemberPath d.selection.word.toList = true := by
    cases d.selection <;> decide
  have hparts : genericParts? d.wrapped = some (d.selection.word.toList, inside) :=
    genericParts?_wrapped hword hpath inside
  have htrim : Trimmed d.wrapped := trimmed_wrapped hword inside
  rw [TypeForm.of, htrim.trim_eq]
  simp only [hhead, hparts, Bool.false_eq_true, if_false]
  rw [splitTopLevel_arguments]

theorem trimmed_front (d : Derivation) :
    Trimmed (d.selection.word.toList ++ '<' :: d.base.head.name) := by
  have hne {n : List Char} (h : isName n = true) : n ≠ [] := by
    rintro rfl
    cases h
  exact (trimmed_of_isName d.selection.isName_word).between (trimmed_of_isName d.base.head.named)
    (hne d.selection.isName_word) (hne d.base.head.named) ['<']

/-- A wrapped type comes apart at the comma between its arguments, for angle brackets are no
brackets here. -/
theorem splitTopLevel_wrapped (d : Derivation) : splitTopLevel d.wrapped [','] =
    [d.selection.word.toList ++ '<' :: d.base.head.name, Key.join d.keys ++ ['>']] := by
  have hjoin : d.wrapped = ([] ++ ',' :: [' ']).intercalate
      [d.selection.word.toList ++ '<' :: d.base.head.name, Key.join d.keys ++ ['>']] := by
    simp [wrapped]
  rw [hjoin]
  refine splitTopLevel_spaced ⟨List.mem_singleton_self ',', by decide, by decide⟩ (by decide)
    blank_nil blank_space ?_
  intro r hr
  rcases List.mem_cons.1 hr with rfl | hr
  · have hname : Sealed [','] d.base.head.name := sealed_of_isName d.base.head.named (by decide)
    have hword : Sealed [','] d.selection.word.toList :=
      sealed_of_isName d.selection.isName_word (by decide)
    exact ⟨hword.append (.plain (by decide) (by decide) hname), d.trimmed_front, by simp⟩
  · obtain ⟨q, b, p, hq, -, hj⟩ := Key.join_edges d.first d.more
    have hbracket : Sealed [','] ['>'] := .plain (by decide) (by decide) .nil
    rw [List.mem_singleton.1 hr]
    refine ⟨(Key.sealed_join (by decide) _).append hbracket, ?_, by simp⟩
    have := trimmed_cons_concat (not_blank_of_isQuote hq) (b := '>') (by decide) (b ++ [p])
    simpa [keys, hj] using this

theorem keysOf_wrapped (d : Derivation) :
    TypeScope.keysOf [d.base.head.name, Key.join d.keys] = d.keys.map Key.name := by
  have hbar : splitTopLevel (Key.join d.keys) ['|'] = d.keys.map Key.text := by
    have hsep : " | ".toList = [' '] ++ '|' :: [' '] := rfl
    rw [Key.join, hsep]
    refine splitTopLevel_spaced ⟨List.mem_singleton_self '|', by decide, by decide⟩ (by decide)
      blank_space blank_space ?_
    intro r hr
    obtain ⟨k, -, rfl⟩ := List.mem_map.1 hr
    obtain ⟨q, b, hq, ht⟩ := exists_quotes k.quoted
    exact ⟨k.quoted.sealed, ht ▸ trimmed_literal hq b, by simp [ht]⟩
  have hread (k : Key) : stringLiteral? k.text = some k.name := k.quoted.stringLiteral?_eq
  simp [TypeScope.keysOf, hbar, List.filterMap_map, hread]

/-- A wrapped type holds no brace, so it is no object type. -/
theorem mem_wrapped {d : Derivation} {c : Char} (h : c ∈ d.wrapped) : c ≠ '\x7b' := by
  rintro rfl
  have hbase : '\x7b' ∉ d.base.head.name := notMem_of_isName d.base.head.named (by decide)
  have hword : '\x7b' ∉ d.selection.word.toList := notMem_of_isName d.selection.isName_word (by decide)
  have hjoin : '\x7b' ∉ Key.join d.keys := by
    intro hm
    rcases Key.mem_join hm with hm | ⟨k, -, hm⟩
    · exact absurd hm (by decide)
    · exact k.plain.2 hm
  simp only [wrapped, List.mem_append, List.mem_cons] at h
  rcases h with h | h | ((h | h) | h) | h | h
  · exact hword h
  · exact absurd h (by decide)
  · exact hbase h
  · exact absurd h (by decide)
  · exact hjoin h
  · exact absurd h (by decide)
  · cases h

def object (d : Derivation) : List Char := '\x7b' :: (d.body ++ ['\x7d'])

def joined (d : Derivation) : List Char := d.wrapped ++ (" & ".toList ++ d.object)

def aliasType (d : Derivation) : List Char := ' ' :: d.joined

theorem sealed_object (d : Derivation) (avoid : List Char) : Sealed avoid d.object :=
  .bracket rfl d.sealed

theorem trimmed_object (d : Derivation) : Trimmed d.object :=
  trimmed_cons_concat (by decide) (by decide) d.body

theorem trimmed_joined (d : Derivation) : Trimmed d.joined :=
  (trimmed_wrapped d.selection.isName_word _).between d.trimmed_object (by simp) (by simp [object]) _

theorem trim_aliasType (d : Derivation) : trim d.aliasType = d.joined := by
  have := trim_pad blank_space d.trimmed_joined blank_nil
  rwa [List.append_nil] at this

/-- A joined type comes apart at the sign between its two parts. -/
theorem splitTopLevel_joined (d : Derivation) :
    splitTopLevel d.joined ['&'] = [d.wrapped, d.object] := by
  have hjoin : d.joined = ([' '] ++ '&' :: [' ']).intercalate [d.wrapped, d.object] := by
    simp [joined]
  rw [hjoin]
  refine splitTopLevel_spaced ⟨List.mem_singleton_self '&', by decide, by decide⟩ (by decide)
    blank_space blank_space ?_
  intro r hr
  rcases List.mem_cons.1 hr with rfl | hr
  · have hword : Sealed ['&'] d.selection.word.toList :=
      sealed_of_isName d.selection.isName_word (by decide)
    have hname : Sealed ['&'] d.base.head.name := sealed_of_isName d.base.head.named (by decide)
    have hcomma : Sealed ['&'] ", ".toList := sealed_of_ordinary (by decide)
    have hclose : Sealed ['&'] ['>'] := .plain (by decide) (by decide) .nil
    have hinside := ((hname.append hcomma).append (Key.sealed_join (by decide) d.keys)).append hclose
    exact ⟨hword.append (.plain (by decide) (by decide) hinside),
      trimmed_wrapped d.selection.isName_word _, by simp [wrapped]⟩
  · rw [List.mem_singleton.1 hr]
    exact ⟨d.sealed_object _, d.trimmed_object, by simp [object]⟩

/-- The type of an alias ends at the semicolon behind it. -/
theorem stop?_aliasType (d : Derivation) :
    Member.stop? (d.aliasType ++ [';']) = some d.aliasType.length := by
  have hword : Sealed typeSigns (' ' :: d.selection.word.toList) :=
    .plain (by decide) (by decide) (sealed_of_isName d.selection.isName_word (by decide))
  have hname : Sealed typeSigns d.base.head.name := sealed_of_isName d.base.head.named (by decide)
  have hkeys : Sealed typeSigns (' ' :: Key.join d.keys) :=
    .plain (by decide) (by decide) (Key.sealed_join (by decide) _)
  have hsign : Sealed typeSigns " & ".toList := sealed_of_ordinary (by decide)
  have hends := ((((endsAt_semicolon []).sealed (hsign.append (d.sealed_object _))).close.sealed
    hkeys).comma.sealed hname).open.sealed hword
  have hshape : d.aliasType ++ [';'] = (' ' :: d.selection.word.toList) ++ '<' ::
      (d.base.head.name ++ ',' :: ((' ' :: Key.join d.keys) ++ '>' ::
        ((" & ".toList ++ d.object) ++ [';']))) := by
    simp [aliasType, joined, wrapped]
  have hstop := hends (d.aliasType ++ [';']) 0 ' ' (by decide)
  rw [← hshape] at hstop
  rw [Member.stop?, marks, hstop]
  have hlen := congrArg List.length hshape
  simp only [List.length_append, List.length_cons, List.length_nil] at hlen ⊢
  congr 1
  omega

/-! ### The two routes -/

/-- The first piece of the extends clause names the wrapper. -/
theorem form_front (d : Derivation) :
    TypeForm.of (d.selection.word.toList ++ '<' :: d.base.head.name) =
      .named d.selection.word.toList := by
  have hword := d.selection.isName_word
  have hangle : '<' ∉ d.selection.word.toList := notMem_of_isName hword (by decide)
  have hhead : ((d.selection.word.toList ++ '<' :: d.base.head.name).head? == some '\x7b') = false := by
    cases d.selection <;> rfl
  have hlast : ((d.selection.word.toList ++ '<' :: d.base.head.name).getLast? != some '>') = true := by
    rw [bne_iff_ne]
    intro hc
    have hname := d.base.head.named
    cases hn : d.base.head.name with
    | nil =>
      rw [hn] at hname
      cases hname
    | cons c n =>
      rw [hn, List.getLast?_append_of_ne_nil _ (by simp), List.getLast?_cons_cons] at hc
      refine notMem_of_isName hname (d := '>') (by decide) ?_
      rw [hn]
      exact List.mem_of_getLast? hc
  have hparts : genericParts? (d.selection.word.toList ++ '<' :: d.base.head.name) = none := by
    rw [genericParts?, d.trimmed_front.trim_eq, find?_of_notMem hangle]
    simp only [Option.bind_eq_bind, Option.bind_some, if_pos hlast]
  have htake : (d.selection.word.toList ++ '<' :: d.base.head.name).takeWhile (· != '<') =
      d.selection.word.toList := by
    rw [List.takeWhile_append_of_pos]
    · simp
    · intro c hc
      rw [bne_iff_ne]
      rintro rfl
      exact hangle hc
  rw [TypeForm.of, d.trimmed_front.trim_eq]
  simp only [hhead, hparts, Bool.false_eq_true, if_false]
  rw [baseTypeName, d.trimmed_front.trim_eq, htake, (trimmed_of_isName hword).trim_eq,
    splitOn_plain (notMem_of_isName hword (by decide))]
  rfl

/-- The last piece of the extends clause keeps the closing bracket in its name. -/
theorem form_back (d : Derivation) :
    ∃ n, TypeForm.of (Key.join d.keys ++ ['>']) = .named n ∧ '>' ∈ n := by
  obtain ⟨q, b, p, hq, -, hj⟩ := Key.join_edges d.first d.more
  have hjoin : Key.join d.keys = q :: (b ++ [p]) := hj
  have htrim : Trimmed (Key.join d.keys ++ ['>']) := by
    have := trimmed_cons_concat (not_blank_of_isQuote hq) (b := '>') (by decide) (b ++ [p])
    simpa [hjoin] using this
  have hangle : '<' ∉ Key.join d.keys ++ ['>'] := by
    intro hm
    rcases List.mem_append.1 hm with hm | hm
    · rcases Key.mem_join hm with hm | ⟨k, -, hm⟩
      · exact absurd hm (by decide)
      · exact k.plain.1 hm
    · exact absurd hm (by decide)
  have hhead : (Key.join d.keys ++ ['>']).head? ≠ some '\x7b' := by
    rw [hjoin, List.cons_append, List.head?_cons]
    intro hc
    rw [Option.some.inj hc] at hq
    cases hq
  obtain ⟨n, hn⟩ := exists_last_piece (o := '.') (c := '>') (by decide) (Key.join d.keys)
  refine ⟨n ++ ['>'], ?_, by simp⟩
  rw [TypeForm.of_plain htrim hhead hangle, hn, Option.getD_some]

theorem form_object (d : Derivation) : TypeForm.of d.object = .object d.body := by
  rw [TypeForm.of, d.trimmed_object.trim_eq, object, groupInner_bracket]
  rfl

def opening (d : Derivation) (k : Keyword) : Opening k where
  exported := none
  lead := .single
  name := d.name
  named := d.named
  after := .space
  params := none

def extending (d : Derivation) : Declaration where
  head :=
    { d.opening .interface with
      parents := some
        { lead := .single
          text := d.wrapped
          trimmed := trimmed_wrapped d.selection.isName_word _
          nonempty := by simp [wrapped]; omega
          plain := fun c hc => bne_iff_ne.2 (mem_wrapped hc)
          after := .space }
      apart := fun h => by simp [opening, Gap.space] at h }
  body := d.body
  after := []

def aliasing (d : Derivation) : Alias where
  head := d.opening .type
  type := d.aliasType
  ends := d.stop?_aliasType
  plain := by
    have hlast : d.joined = (d.wrapped ++ (" & ".toList ++ '\x7b' :: d.body)) ++ ['\x7d'] := by
      simp [joined, object]
    rw [d.trim_aliasType, hlast, List.getLast?_concat]
    simp
  after := []

def byExtends (d : Derivation) : List Char :=
  d.base.text ++ ("interface ".toList ++ d.name ++ " extends ".toList ++ d.wrapped ++ " ".toList ++
    d.object)

def byAlias (d : Derivation) : List Char :=
  d.base.text ++ ("type ".toList ++ d.name ++ " = ".toList ++ d.wrapped ++ " & ".toList ++
    d.object ++ ";".toList)

/-- The base and the interface that extends the wrapper are a text of two declarations. -/
theorem byExtends_eq (d : Derivation) :
    d.byExtends = Declaration.texts [d.base, d.extending] [] := by
  have hhead : d.extending.head.text = "interface ".toList ++ (d.name ++ (" extends ".toList ++
      (d.wrapped ++ " \x7b".toList))) := by
    have hextends : " extends ".toList = [' '] ++ ("extends".toList ++ [' ']) := rfl
    have hparents : d.extending.head.parents.elim [] Parents.print =
        ("extends".toList ++ [' ']) ++ (d.wrapped ++ [' ']) := rfl
    have hopening : d.extending.head.toOpening.text = "interface ".toList ++ d.name ++ [' '] ++
        [] ++ [] := rfl
    rw [InterfaceHead.text, hparents, hopening, hextends]
    simp only [List.append_assoc, List.nil_append]
    rfl
  have hbody : d.extending.inside = d.body ++ ['\x7d'] := rfl
  have hbrace : " \x7b".toList = [' '] ++ ['\x7b'] := rfl
  simp only [byExtends, Declaration.texts, List.foldr_cons, List.foldr_nil, List.append_nil,
    Declaration.text, hhead, hbody, object]
  simp only [List.append_assoc, hbrace]
  rfl

theorem byAlias_eq (d : Derivation) : d.byAlias = Declaration.texts [d.base] d.aliasing.text := by
  have hhead : d.aliasing.head.text ++ ['='] = "type ".toList ++ (d.name ++ " =".toList) := by
    have hopening : d.aliasing.head.text = "type ".toList ++ d.name ++ [' '] ++ [] ++ [] := rfl
    rw [hopening]
    simp only [List.append_assoc, List.nil_append]
    rfl
  have hinside : d.aliasing.inside = " ".toList ++ (d.joined ++ ";".toList) := rfl
  have hsign : " = ".toList = " =".toList ++ " ".toList := rfl
  simp only [byAlias, Declaration.texts, List.foldr_cons, List.foldr_nil, Alias.text, hhead,
    hinside, joined, hsign, List.append_assoc]

/-- No head is spelled between the heads, and the body of the base is closed by its own brace. -/
structure Stands (d : Derivation) : Prop where
  extends_apart : Declaration.Apart none [d.base, d.extending] []
  extends_plain : TypeScope.aliasHead.findAll d.byExtends = []
  alias_apart : Declaration.Apart none [d.base] d.aliasing.text
  before : TypeScope.aliasHead.Misses none d.base.text d.aliasing.text
  inside : TypeScope.aliasHead.Misses (some '=') d.aliasing.inside []
  edge : ∀ c ∈ d.base.text.getLast?, isWord c = false

def baseScope (d : Derivation) : TypeScope := Declaration.scope [d.base]

def withDecl (d : Derivation) (decl : TypeDecl) : TypeScope :=
  d.baseScope.insert (String.ofList d.name) decl

theorem parse_byExtends {d : Derivation} (h : d.Stands) :
    TypeScope.parse d.byExtends =
      d.withDecl (.interface (splitTopLevel d.wrapped [',']) (Member.parseAll d.body)) := by
  have hfront : TypeScope.interfaceHead.Misses none [] (Declaration.texts [d.base, d.extending] []) :=
    Keyword.misses_interface rfl _
  have hplain := h.extends_plain
  rw [byExtends_eq] at hplain ⊢
  exact Declaration.parse_interfaces hfront h.extends_apart hplain

theorem parse_byAlias {d : Derivation} (h : d.Stands) :
    TypeScope.parse d.byAlias = d.withDecl (.synonym d.joined) := by
  have hfront : TypeScope.interfaceHead.Misses none [] (Declaration.texts [d.base] d.aliasing.text) :=
    Keyword.misses_interface rfl _
  have hbase : Declaration.texts [d.base] [] = d.base.text := List.append_nil _
  have hbefore := h.before
  have hedge := h.edge
  rw [← hbase] at hbefore hedge
  have hparse := d.aliasing.parse_texts hfront h.alias_apart hbefore h.inside hedge
  rw [byAlias_eq, ← d.trim_aliasType]
  exact hparse

theorem get?_baseScope (d : Derivation) (n : List Char) : d.baseScope.get? (String.ofList n) =
    if n = d.base.head.name then some d.base.decl else none := by
  have hscope : d.baseScope = ({} : TypeScope).insert d.base.name d.base.decl := rfl
  rw [hscope, TypeScope.get?_insert, Declaration.name]
  simp only [String.ofList_inj]
  rfl

theorem get?_withDecl (d : Derivation) (decl : TypeDecl) (n : List Char) :
    (d.withDecl decl).get? (String.ofList n) =
      if n = d.name then some decl else d.baseScope.get? (String.ofList n) := by
  rw [withDecl, TypeScope.get?_insert]
  simp only [String.ofList_inj]

/-- What is no name is not declared. -/
theorem get?_withDecl_eq_none (d : Derivation) (decl : TypeDecl) {n : List Char} (hx : n ≠ d.name)
    (hb : n ≠ d.base.head.name) : (d.withDecl decl).get? (String.ofList n) = none := by
  rw [get?_withDecl, if_neg hx, get?_baseScope, if_neg hb]

/-- Both pieces of the extends clause are unknown, so nothing is taken over. -/
theorem membersOf_extending (d : Derivation) (own : List Member) :
    (d.withDecl (.interface (splitTopLevel d.wrapped [',']) own)).membersOf d.name =
      Member.merge [] own := by
  obtain ⟨n, hback, hangle⟩ := d.form_back
  have hne {m : List Char} (hm : isName m = true) : n ≠ m := by
    rintro rfl
    exact notMem_of_isName hm (by decide) hangle
  have hget := d.get?_withDecl (.interface (splitTopLevel d.wrapped [',']) own) d.name
  rw [if_pos rfl] at hget
  have hnone : (d.withDecl (.interface (splitTopLevel d.wrapped [',']) own)).Resolves [d.name]
      (.all [] (splitTopLevel d.wrapped [','])) [] := by
    rw [splitTopLevel_wrapped]
    have hfront := d.get?_withDecl_eq_none
      (.interface [d.selection.word.toList ++ '<' :: d.base.head.name, Key.join d.keys ++ ['>']] own)
      d.wordless.2.symm d.wordless.1.symm
    have hlater := d.get?_withDecl_eq_none
      (.interface [d.selection.word.toList ++ '<' :: d.base.head.name, Key.join d.keys ++ ['>']] own)
      (hne d.named) (hne d.base.head.named)
    exact .next (.unknown d.form_front (by simpa using d.wordless.2.symm) hfront)
      (.next (.unknown hback (by simpa using hne d.named) hlater) .done)
  exact (TypeScope.resolves_iff.1
    (.declared (TypeForm.of_name d.named) List.not_mem_nil hget hnone)).symm

def kept (d : Derivation) : List Member :=
  (d.baseScope.membersOf d.base.head.name).filter (d.selection.keeps (d.keys.map Key.name))

theorem nodup_kept (d : Derivation) : (Member.names d.kept).Nodup := by
  have hbase := (d.baseScope.resolves_membersOf d.base.head.name).nodup_named
    (TypeForm.of_name d.base.head.named)
  exact hbase.sublist (List.filter_sublist.map _)

/-- The alias takes over what the wrapper keeps, and merges the body into it. -/
theorem membersOf_aliasing (d : Derivation) :
    (d.withDecl (.synonym d.joined)).membersOf d.name =
      Member.merge d.kept (Member.parseAll d.body) := by
  have hget := d.get?_withDecl (.synonym d.joined)
  have hself := hget d.name
  rw [if_pos rfl] at hself
  have hbase : (d.withDecl (.synonym d.joined)).Resolves [d.name] (.one d.base.head.name)
      (d.baseScope.membersOf d.base.head.name) := by
    refine (d.baseScope.resolves_membersOf _).hidden (x := d.name) ?_ (fun n hn => ?_) (by simp)
    · rw [get?_baseScope, if_neg d.own]
    · rw [hget, if_neg hn]
  have hwrapped : (d.withDecl (.synonym d.joined)).Resolves [d.name] (.one d.wrapped) d.kept := by
    refine .wrapped d.form_wrapped ?_ hbase
    rw [d.selection.wrapped?_word, d.keysOf_wrapped]
  have hobject : (d.withDecl (.synonym d.joined)).Resolves [d.name] (.one d.object)
      (Member.parseAll d.body) := .object d.form_object (Member.reads_iff.2 rfl)
  have hall : (d.withDecl (.synonym d.joined)).Resolves [d.name]
      (.all [] (splitTopLevel d.joined ['&'])) (Member.merge d.kept (Member.parseAll d.body)) := by
    rw [splitTopLevel_joined]
    refine .next hwrapped (.next hobject ?_)
    rw [Member.merge_nil_of_nodup d.nodup_kept]
    exact .done
  exact (TypeScope.resolves_iff.1
    (.declared (TypeForm.of_name d.named) List.not_mem_nil hself hall)).symm

/-- The alias gives the members that the wrapper keeps, overridden and extended by the body, and the
interface gives those of the body alone. The attributes are the same just where the body replaces all
that is kept in its place and its types say the same in both scopes. -/
theorem alias_takes_over_and_extends_does_not (d : Derivation) (h : d.Stands) :
    let extended := TypeScope.parse d.byExtends
    let aliased := TypeScope.parse d.byAlias
    let name := String.ofList d.name
    let own := Member.merge [] (Member.parseAll d.body)
    aliased.attributesOf name =
        (Member.merge d.kept (Member.parseAll d.body)).map aliased.describe ∧
      extended.attributesOf name = own.map extended.describe ∧
      (extended.attributesOf name = aliased.attributesOf name ↔
        Member.names d.kept <+: Member.names own ∧
          ∀ m ∈ own, extended.describe m = aliased.describe m) := by
  intro extended aliased name own
  have haliased : aliased.attributesOf name =
      (Member.merge d.kept (Member.parseAll d.body)).map aliased.describe := by
    have hmembers := d.membersOf_aliasing
    rw [← parse_byAlias h] at hmembers
    rw [TypeScope.attributesOf, String.toList_ofList, hmembers]
  have hextended : extended.attributesOf name = own.map extended.describe := by
    have hmembers := d.membersOf_extending (Member.parseAll d.body)
    rw [← parse_byExtends h] at hmembers
    rw [TypeScope.attributesOf, String.toList_ofList, hmembers]
  refine ⟨haliased, hextended, ?_⟩
  rw [haliased, hextended]
  constructor
  · intro hsame
    have hnames (scope : TypeScope) (ms : List Member) :
        (ms.map scope.describe).map (·.name) = Member.names ms := by
      rw [List.map_map]
      rfl
    have hreplaced : Member.names d.kept <+: Member.names own := by
      have := congrArg (List.map (·.name)) hsame
      rw [hnames, hnames, Member.names_merge d.kept] at this
      exact ⟨_, this.symm⟩
    rw [Member.merge_eq_of_prefix hreplaced] at hsame
    exact ⟨hreplaced, List.map_inj_left.1 hsame⟩
  · rintro ⟨hreplaced, hdescribe⟩
    rw [Member.merge_eq_of_prefix hreplaced]
    exact List.map_inj_left.2 hdescribe

def pair : Declaration where
  head := .simple ['B'] (by decide)
  body := " a: string; b: string ".toList
  after := ['\n']

def restOfPair (body : List Char) (h : Sealed [] body) : Derivation where
  base := pair
  selection := .without
  first := ⟨['a'], _, quoted_of_plain (.inl rfl) (by decide) (by decide), by decide⟩
  more := []
  name := ['X']
  body := body
  named := by decide
  sealed := h
  own := by decide
  wordless := by decide

theorem stands_restOfPair {body : List Char} {h : Sealed [] body}
    (hextends : Keyword.plain .interface pair.inside (restOfPair body h).extending.text = true ∧
      Keyword.plain .interface (restOfPair body h).extending.inside [] = true ∧
      Keyword.plain .type (restOfPair body h).byExtends [] = true)
    (halias : Keyword.plain .interface pair.inside (restOfPair body h).aliasing.text = true ∧
      Keyword.plain .interface (restOfPair body h).aliasing.text [] = true ∧
      Keyword.plain .type pair.text (restOfPair body h).aliasing.text = true ∧
      Keyword.plain .type (restOfPair body h).aliasing.inside [] = true) :
    (restOfPair body h).Stands := by
  have hpair : isGroup '\x7b' ('\x7b' :: (pair.body ++ ['\x7d'])) = true := by decide
  have hedge : ∀ c ∈ pair.text.getLast?, isWord c = false := by decide
  obtain ⟨hbetween, hinside, hplain⟩ := hextends
  obtain ⟨hbetween', htail, hbefore, hafter⟩ := halias
  have htext : Declaration.texts [(restOfPair body h).extending] [] =
      (restOfPair body h).extending.text := List.append_nil _
  constructor
  case extends_apart =>
    refine ⟨hpair, ?_, isGroup_bracket rfl h, Keyword.misses_interface hinside _,
      Keyword.misses_interface rfl _⟩
    rw [htext]
    exact Keyword.misses_interface hbetween _
  case extends_plain => exact Keyword.findAll_alias hplain
  case alias_apart =>
    exact ⟨hpair, Keyword.misses_interface hbetween' _, Keyword.misses_interface htail _⟩
  case before => exact Keyword.misses_alias hbefore _
  case inside => exact Keyword.misses_alias hafter _
  case edge => exact hedge

/-- A body that starts with the member that is kept replaces it. -/
theorem replaced_rest_agrees :
    let d := restOfPair " b: number; c: string ".toList (sealed_of_ordinary (by decide))
    d.Stands ∧ Member.names d.kept = ["b"] ∧
      (TypeScope.parse d.byExtends).attributesOf "X" = (TypeScope.parse d.byAlias).attributesOf "X" := by
  intro d
  have hstands : d.Stands := stands_restOfPair (by decide) (by decide)
  refine ⟨hstands, by decide, ?_⟩
  refine (alias_takes_over_and_extends_does_not d hstands).2.2.2 ⟨by decide, ?_⟩
  have hprimitive : ∀ m ∈ Member.merge [] (Member.parseAll d.body),
      ∀ p ∈ splitTopLevel (stripOuterParens m.type) ['|'],
        (TypeScope.primitive? (stripOuterParens p)).isSome = true := by decide
  exact fun m hm => TypeScope.describe_of_primitive _ _ (hprimitive m hm)

/-- A body with another member leaves the interface without the one that is kept. -/
theorem extends_loses_the_rest :
    let d := restOfPair " c: string ".toList (sealed_of_ordinary (by decide))
    d.Stands ∧ ((TypeScope.parse d.byExtends).attributesOf "X").map (·.name) = ["c"] ∧
      ((TypeScope.parse d.byAlias).attributesOf "X").map (·.name) = ["b", "c"] := by
  intro d
  have hstands : d.Stands := stands_restOfPair (by decide) (by decide)
  exact ⟨hstands, by decide⟩

end Derivation

end JsxToJinja
