import JsxToJinja.Component.TypeScope
import JsxToJinja.Proofs.Text.PatternRuns

/-! Names of declarations: every scope that is read from a text declares names, and a name stands for
itself as a type. -/
namespace JsxToJinja
open JsxToJinja.Text JsxToJinja.Code

theorem mem_isName {n : List Char} (h : isName n = true) {c : Char} (hc : c ∈ n) :
    (isWord c || c == '$') = true := by
  cases n with
  | nil => cases hc
  | cons d n =>
    simp only [isName, Bool.and_eq_true, List.all_eq_true] at h
    rcases List.mem_cons.1 hc with rfl | hc
    · exact isWord_of_isIdentifierChar (isIdentifierChar_of_start h.1)
    · exact h.2 c hc

theorem notMem_of_isName {n : List Char} (h : isName n = true) {d : Char}
    (hd : (isWord d || d == '$') = false) : d ∉ n := fun hm => by
  rw [mem_isName h hm] at hd
  cases hd

theorem trimmed_of_isName {n : List Char} (h : isName n = true) : Trimmed n := by
  refine trimmed_of_no_blank fun c hc => ?_
  rw [← Bool.not_eq_true]
  intro hb
  have hne : (c == '$') = false := beq_false_of_ne (ne_of_isBlank hb (by decide))
  have hword := mem_isName h hc
  rw [not_isWord_of_isBlank hb, hne] at hword
  cases hword

namespace TypeScope

def WellNamed (scope : TypeScope) : Prop := ∀ n ∈ scope.names, isName n.toList = true

/-- A declaration keeps the names there are and adds its own at the end, once. -/
theorem names_insert (scope : TypeScope) (name : String) (decl : TypeDecl) :
    (scope.insert name decl).names =
      if name ∈ scope.names then scope.names else scope.names ++ [name] := by
  have hany : scope.decls.any (·.1 == name) = true ↔ name ∈ scope.names := by
    simp only [List.any_eq_true, beq_iff_eq, names, List.mem_map]
  rw [insert]
  by_cases h : name ∈ scope.names
  · have hsame : (fun d : String × TypeDecl => (if d.1 == name then (name, decl) else d).1) =
        (·.1) := by
      funext d
      by_cases hd : d.1 = name <;> simp [hd]
    rw [if_pos (hany.2 h), if_pos h, names, List.map_map]
    exact congrArg (fun f => scope.decls.map f) hsame
  · rw [if_neg (mt hany.1 h), if_neg h]
    simp [names]

theorem wellNamed_insert {scope : TypeScope} {name : List Char} (h : scope.WellNamed)
    (hname : isName name = true) (decl : TypeDecl) :
    (scope.insert (String.ofList name) decl).WellNamed := by
  intro n hn
  rw [names_insert] at hn
  split at hn
  · exact h n hn
  · rcases List.mem_append.1 hn with hn | hn
    · exact h n hn
    · rwa [List.mem_singleton.1 hn, String.toList_ofList]

open Pattern in
theorem leads_interfaceHead (t : List Char) :
    interfaceHead.Leads t (fun _ => True) (Names t 1) := by
  have hblanks {K : Captures → Prop} (n : Nat) : (many n isBlank).Leads t K K := leads_many n _
  have hparents : (group 2 (few 1 (· != '\x7b'))).Leads t (Names t 1) (Names t 1) :=
    leads_group (leads_few 1 _) fun _ a b h => h.add (by decide) a b
  refine leads_append ?_ (leads_one _)
  refine leads_append ?_ (hblanks 0)
  refine leads_append ?_ (leads_opt (leads_append (leads_append (leads_lit _) (hblanks 1)) hparents))
  refine leads_append ?_ (hblanks 0)
  refine leads_append ?_
    (leads_opt (leads_append (leads_append (leads_lit _) (leads_many 0 _)) (leads_lit _)))
  refine leads_append ?_ (hblanks 0)
  refine leads_append ?_ (leads_name 1)
  refine leads_append ?_ (hblanks 1)
  exact leads_append (leads_opt (leads_append (leads_lit _) (hblanks 1))) (leads_lit _)

open Pattern in
theorem leads_aliasHead (t : List Char) :
    aliasHead.Leads t (fun _ => True) (Names t 1) := by
  have hblanks {K : Captures → Prop} (n : Nat) : (many n isBlank).Leads t K K := leads_many n _
  refine leads_append ?_ (leads_lit _)
  refine leads_append ?_ (hblanks 0)
  refine leads_append ?_
    (leads_opt (leads_append (leads_append (leads_lit _) (leads_many 0 _)) (leads_lit _)))
  refine leads_append ?_ (hblanks 0)
  refine leads_append ?_ (leads_name 1)
  refine leads_append ?_ (hblanks 1)
  refine leads_append ?_ (leads_lit _)
  exact leads_append leads_wordEdge (leads_opt (leads_append (leads_lit _) (hblanks 1)))

/-- What a text declares goes by names. -/
theorem wellNamed_parse (t : List Char) : (parse t).WellNamed := by
  have hinterfaces (ms : List Match) (h : ∀ m ∈ ms, isName (m.text t 1) = true)
      (scope : TypeScope) (hs : scope.WellNamed) : (ms.foldl (addInterface t) scope).WellNamed := by
    induction ms generalizing scope with
    | nil => exact hs
    | cons m ms ih =>
      refine ih (fun m' hm' => h m' (by simp [hm'])) _ ?_
      rw [addInterface]
      split
      · exact hs
      · exact wellNamed_insert hs (h m (by simp)) _
  have haliases (ms : List Match) (h : ∀ m ∈ ms, isName (m.text t 1) = true)
      (scope : TypeScope) (hs : scope.WellNamed) : (ms.foldl (addAlias t) scope).WellNamed := by
    induction ms generalizing scope with
    | nil => exact hs
    | cons m ms ih =>
      exact ih (fun m' hm' => h m' (by simp [hm'])) _ (wellNamed_insert hs (h m (by simp)) _)
  refine haliases _ (fun m hm => Pattern.isName_text_of_mem_findAll (leads_aliasHead t) hm) _ ?_
  refine hinterfaces _ (fun m hm => Pattern.isName_text_of_mem_findAll (leads_interfaceHead t) hm) _ ?_
  intro n hn
  cases hn

end TypeScope

end JsxToJinja
