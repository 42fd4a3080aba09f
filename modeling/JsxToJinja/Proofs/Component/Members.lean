import JsxToJinja.Component.TypeScope
import JsxToJinja.Proofs.Text.Trimmed
import Mathlib.Data.List.Basic
import Mathlib.Data.List.Induction

/-! Members of object types: merging keeps their names apart, and reading them comes to an end. -/
namespace JsxToJinja.Member
open JsxToJinja.Text JsxToJinja.Code

/-! ### Merging -/

def names (members : List Member) : List String := members.map (·.name)

def put (members : List Member) (m : Member) : List Member :=
  if members.any (·.name == m.name) then members.map fun o => if o.name == m.name then m else o
  else members ++ [m]

theorem merge_cons (members : List Member) (m : Member) (more : List Member) :
    merge members (m :: more) = merge (put members m) more := rfl

theorem any_name_iff {members : List Member} {name : String} :
    members.any (·.name == name) = true ↔ name ∈ names members := by
  simp only [List.any_eq_true, beq_iff_eq, names, List.mem_map]

/-- Members go by the names they had, with a new one at the end. -/
theorem names_put (members : List Member) (m : Member) :
    names (put members m) =
      if m.name ∈ names members then names members else names members ++ [m.name] := by
  rw [put]
  by_cases h : m.name ∈ names members
  · have hsame : (fun o : Member => (if o.name == m.name then m else o).name) = (·.name) := by
      funext o
      by_cases ho : o.name = m.name <;> simp [ho]
    rw [if_pos (any_name_iff.2 h), if_pos h, names, List.map_map]
    exact congrArg (fun f => members.map f) hsame
  · rw [if_neg (mt any_name_iff.1 h), if_neg h]
    simp [names]

theorem nodup_put {members : List Member} (h : (names members).Nodup) (m : Member) :
    (names (put members m)).Nodup := by
  rw [names_put]
  split
  · exact h
  · rename_i hm
    rw [List.nodup_append]
    refine ⟨h, by simp, fun n hn o ho => ?_⟩
    rw [List.mem_singleton.1 ho]
    rintro rfl
    exact hm hn

theorem nodup_merge {members : List Member} (h : (names members).Nodup) (more : List Member) :
    (names (merge members more)).Nodup := by
  induction more generalizing members with
  | nil => exact h
  | cons m more ih => exact ih (nodup_put h m)

theorem merge_concat (members more : List Member) (m : Member) :
    merge members (more ++ [m]) = put (merge members more) m := by
  rw [merge, List.foldl_append]
  rfl

/-- Members with names of their own are merged into none as they are. -/
theorem merge_nil_of_nodup {more : List Member} (h : (names more).Nodup) : merge [] more = more := by
  induction more using List.reverseRecOn with
  | nil => rfl
  | append_singleton more m ih =>
    rw [names, List.map_append, ← names, List.nodup_append] at h
    have hnew : m.name ∉ names more := fun hm => h.2.2 _ hm _ (by simp) rfl
    rw [merge_concat, ih h.1, put, if_neg (mt any_name_iff.1 hnew)]

/-- Names that are there keep their places, and those that are new follow in order. -/
theorem names_merge (members more : List Member) : names (merge members more) =
    names members ++ (names (merge [] more)).filter (· ∉ names members) := by
  induction more using List.reverseRecOn with
  | nil => simp [merge, names]
  | append_singleton more m ih =>
    rw [merge_concat, merge_concat, names_put, names_put, ih]
    by_cases hin : m.name ∈ names members
    · have hskip : [m.name].filter (· ∉ names members) = [] := by simp [hin]
      rw [if_pos (List.mem_append_left _ hin)]
      split
      · rfl
      · rw [List.filter_append, hskip, List.append_nil]
    · by_cases hnew : m.name ∈ names (merge [] more)
      · have hmem : m.name ∈ (names (merge [] more)).filter (· ∉ names members) := by
          simp [hnew, hin]
        rw [if_pos (List.mem_append_right _ hmem), if_pos hnew]
      · have hnot : m.name ∉ names members ++ (names (merge [] more)).filter (· ∉ names members) := by
          simp [hnew, hin]
        have hkeep : [m.name].filter (· ∉ names members) = [m.name] := by simp [hin]
        rw [if_neg hnot, if_neg hnew, List.filter_append, hkeep, List.append_assoc]

def latest (more : List Member) (name : String) : Option Member :=
  more.reverse.find? (·.name == name)

/-- A merged member is the last one of its name that came later, or was there if none came. -/
theorem latest_of_mem_merge {members more : List Member} {m : Member}
    (h : m ∈ merge members more) :
    latest more m.name = some m ∨ latest more m.name = none ∧ m ∈ members := by
  induction more using List.reverseRecOn with
  | nil => exact .inr ⟨rfl, h⟩
  | append_singleton more o ih =>
    have hlatest (name : String) : latest (more ++ [o]) name =
        if o.name == name then some o else latest more name := by
      rw [latest, List.reverse_append, List.reverse_singleton, List.singleton_append,
        List.find?_cons, latest]
      cases o.name == name <;> rfl
    have hput : m = o ∨ m ∈ merge members more ∧ m.name ≠ o.name := by
      rw [merge_concat, put] at h
      split at h
      · obtain ⟨x, hx, rfl⟩ := List.mem_map.1 h
        split
        · exact .inl rfl
        · rename_i hne
          exact .inr ⟨hx, by simpa using hne⟩
      · rename_i hnone
        rcases List.mem_append.1 h with h | h
        · refine .inr ⟨h, fun he => hnone (any_name_iff.2 ?_)⟩
          exact he ▸ List.mem_map_of_mem h
        · exact .inl (List.mem_singleton.1 h)
    rw [hlatest]
    rcases hput with rfl | ⟨hm, hne⟩
    · simp
    · rw [if_neg (by simpa using hne.symm)]
      exact ih hm

/-- Members that are all replaced in their places leave no trace. -/
theorem merge_eq_of_prefix {members more : List Member}
    (h : names members <+: names (merge [] more)) : merge members more = merge [] more := by
  have hnone : (names []).Nodup := List.nodup_nil
  have hnodup : (names (merge [] more)).Nodup := nodup_merge hnone more
  have hnames : names (merge members more) = names (merge [] more) := by
    obtain ⟨later, hl⟩ := h
    rw [← hl] at hnodup
    have hdisjoint := (List.nodup_append.1 hnodup).2.2
    rw [names_merge, ← hl, List.filter_append, List.filter_eq_nil_iff.2 (by simp),
      List.nil_append, List.filter_eq_self.2]
    intro n hn
    simpa using fun hm => hdisjoint n hm n hn rfl
  -- each list is read off its names by the last member of each
  have hread (start : List Member) (hall : ∀ m ∈ merge start more, latest more m.name = some m) :
      merge start more = (names (merge start more)).filterMap (latest more) := by
    have hsome : (merge start more).filterMap (latest more ∘ (·.name)) =
        (merge start more).filterMap some := List.filterMap_congr hall
    rw [names, List.filterMap_map, hsome, List.filterMap_some]
  have hnew : ∀ m ∈ merge [] more, latest more m.name = some m := fun m hm =>
    (latest_of_mem_merge hm).resolve_right fun h => by simpa using h.2
  have hold : ∀ m ∈ merge members more, latest more m.name = some m := by
    intro m hm
    refine (latest_of_mem_merge hm).resolve_right fun hnone => ?_
    have hin : m.name ∈ names (merge [] more) := hnames ▸ List.mem_map_of_mem hm
    obtain ⟨o, ho, hname⟩ := List.mem_map.1 hin
    rw [← hname, hnew o ho] at hnone
    cases hnone.1
  rw [hread members hold, hread [] hnew, hnames]

/-! ### Reading -/

/-- One round of reading: the members it gives, the description kept for the next one, and the text
that is left. -/
def round (doc : Option String) (t : List Char) :
    Option (List Member × Option String × List Char) :=
  let t := trimStart t
  if t.isEmpty then none
  else if startsWith t ['/', '*'] then
    let n := ((find? ['*', '/'] t).map (· + 2)).getD t.length
    some ([], description? (t.take n), t.drop n)
  else if startsWith t ['/', '/'] then some ([], doc, t.dropWhile (· != '\n'))
  else
    let n := (stop? t).getD t.length
    some ((parse? (trim (t.take n)) doc).toList, none, t.drop (n + 1))

theorem parseFrom_succ (fuel : Nat) (doc : Option String) (t : List Char) :
    parseFrom (fuel + 1) doc t =
      match round doc t with
      | none => []
      | some (read, doc, rest) => read ++ parseFrom fuel doc rest := by
  rw [parseFrom, round]
  dsimp only
  split
  · rfl
  · split
    · rfl
    · split <;> rfl

/-- Every round shortens the text. -/
theorem length_of_round {doc doc' : Option String} {t rest : List Char} {read : List Member}
    (h : round doc t = some (read, doc', rest)) : rest.length < t.length := by
  have hle : (trimStart t).length ≤ t.length := (List.dropWhile_suffix isBlank).length_le
  rw [round] at h
  dsimp only at h
  generalize trimStart t = u at h hle
  cases u with
  | nil => simp at h
  | cons c u =>
    rw [if_neg (by simp)] at h
    split at h
    · simp only [Option.some.injEq, Prod.mk.injEq] at h
      obtain ⟨-, -, rfl⟩ := h
      have hpos : 0 < ((find? ['*', '/'] (c :: u)).map (· + 2)).getD (c :: u).length := by
        cases find? ['*', '/'] (c :: u) <;> simp
      rw [List.length_drop, List.length_cons] at *
      omega
    · split at h
      · rename_i hline
        obtain ⟨r, hr⟩ := List.isPrefixOf_iff_prefix.1 hline
        obtain ⟨rfl, -⟩ := List.cons.inj hr
        cases h
        have hdrop : (u.dropWhile (· != '\n')).length ≤ u.length :=
          (List.dropWhile_suffix _).length_le
        rw [List.dropWhile_cons, if_pos (by decide)]
        rw [List.length_cons] at hle
        omega
      · simp only [Option.some.injEq, Prod.mk.injEq] at h
        obtain ⟨-, -, rfl⟩ := h
        rw [List.length_drop, List.length_cons] at *
        omega

/-- Reading round by round until nothing but blanks is left. -/
inductive Reads : Option String → List Char → List Member → Prop
  | done {doc : Option String} {t : List Char} : round doc t = none → Reads doc t []
  | next {doc doc' : Option String} {t rest : List Char} {read later : List Member} :
      round doc t = some (read, doc', rest) → Reads doc' rest later → Reads doc t (read ++ later)

theorem round_append {g : List Char} (hg : Blank g) (doc : Option String) (t : List Char) :
    round doc (g ++ t) = round doc t := by
  rw [round, round, trimStart_append hg]

/-- Blanks in front are passed over. -/
theorem Reads.append {g t : List Char} {doc : Option String} {ms : List Member} (hg : Blank g)
    (h : Reads doc t ms) : Reads doc (g ++ t) ms := by
  cases h with
  | done hr => exact .done (by rwa [round_append hg])
  | next hr hl => exact .next (by rwa [round_append hg]) hl

theorem reads_parseFrom {fuel : Nat} {doc : Option String} {t : List Char}
    (h : t.length < fuel) : Reads doc t (parseFrom fuel doc t) := by
  induction fuel generalizing doc t with
  | zero => omega
  | succ fuel ih =>
    rw [parseFrom_succ]
    cases hr : round doc t with
    | none => exact .done hr
    | some r =>
      obtain ⟨read, doc', rest⟩ := r
      have hlt := length_of_round hr
      exact .next hr (ih (by omega))

/-- A text is read as members in one way. -/
theorem Reads.unique {doc : Option String} {t : List Char} {ms ms' : List Member}
    (h : Reads doc t ms) (h' : Reads doc t ms') : ms = ms' := by
  induction h generalizing ms' with
  | done hr =>
    cases h' with
    | done => rfl
    | next hr' => cases hr.symm.trans hr'
  | next hr _ ih =>
    cases h' with
    | done hr' => cases hr.symm.trans hr'
    | next hr' hl' =>
      cases hr.symm.trans hr'
      rw [ih hl']

/-- The members of a body are what the rounds give. -/
theorem reads_iff {body : List Char} {ms : List Member} :
    Reads none body ms ↔ ms = parseAll body := by
  have hall : Reads none body (parseAll body) := reads_parseFrom (Nat.lt_succ_self _)
  constructor
  · exact fun h => h.unique hall
  · rintro rfl
    exact hall

end JsxToJinja.Member
