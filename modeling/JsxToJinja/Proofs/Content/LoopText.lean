import Mathlib.Data.List.Forall2
import JsxToJinja.Proofs.Content.TreeContent
import JsxToJinja.Proofs.Content.Rendering

/-! Texts of iterations: a path, `.map(`, the parameters of a function, `=>` and its body. -/
namespace JsxToJinja
open JsxToJinja.Text JsxToJinja.Code JsxToJinja.Markup

namespace Code

/-- In front of `.map(` stands no parenthesis, so it is found right behind. -/
theorem findTopLevel?_map {pre : List Char} (hs : Sealed [] pre) (hp : '(' ∉ pre) (rest : List Char) :
    findTopLevel? (pre ++ (".map(".toList ++ rest)) ".map(".toList = some pre.length := by
  obtain ⟨ms, he, hm⟩ := hs.marksFrom_append 0 0 (".map(".toList ++ rest)
  have hmarks : marks (pre ++ (".map(".toList ++ rest)) = ms ++
      ⟨pre.length, '.', 0, ".map(".toList ++ rest⟩ ::
        marksFrom .code 0 (pre.length + 1) ("map(".toList ++ rest) := by
    rw [marks, he, Nat.zero_add]
    exact congrArg _ (marksFrom_ordinary (by decide) 0 pre.length ("map(".toList ++ rest))
  have hnone : ms.find? (·.starts ".map(".toList) = none := by
    rw [List.find?_eq_none]
    intro m hmem hstarts
    have hlt := (hm m hmem).upper
    have hin : m ∈ marksFrom .code 0 0 (pre ++ (".map(".toList ++ rest)) := by
      rw [he]
      exact List.mem_append_left _ hmem
    simp only [Mark.starts, Bool.and_eq_true, startsWith, List.isPrefixOf_iff_prefix,
      (rest_of_mem_marksFrom hin).2] at hstarts
    obtain ⟨tail, htail⟩ := hstarts.2
    -- The parenthesis of an earlier occurrence would stand in front or on one of the letters.
    have hat : (pre ++ (".map(".toList ++ rest))[m.index + 4]? = some '(' := by
      have := congrArg (·[4]?) htail
      simpa [List.getElem?_drop] using this.symm
    by_cases hin : m.index + 4 < pre.length
    · rw [List.getElem?_append_left hin] at hat
      exact hp (List.mem_of_getElem? hat)
    · rw [List.getElem?_append_right (by omega)] at hat
      have hletters : ∀ i < 4, (".map(".toList ++ rest)[i]? ≠ some '(' := by
        intro i hi
        obtain rfl | rfl | rfl | rfl : i = 0 ∨ i = 1 ∨ i = 2 ∨ i = 3 := by omega
        all_goals simp
      exact hletters (m.index + 4 - pre.length) (by omega) hat
  have hneedle : (".map(".toList).isEmpty = false := by decide
  have hat : Mark.starts ⟨pre.length, '.', 0, ".map(".toList ++ rest⟩ ".map(".toList = true :=
    starts_at (c := '.') (by decide) pre.length "map(".toList rest
  rw [findTopLevel?, hneedle, if_neg Bool.false_ne_true, hmarks, List.find?_append, hnone,
    Option.none_or, List.find?_cons, hat]
  rfl

/-- A piece between separators with a text in it. -/
structure IsPiece (c : Char) (r t : List Char) : Prop where
  trim_eq : trim r = t
  sealed : Sealed [c] r
  filled : t ≠ []

theorem IsPiece.pad {c : Char} {t : List Char} (hs : Sealed [c] t) (ht : Trimmed t) (hne : t ≠ [])
    (hc : isBlank c = false) {u v : List Char} (hu : Blank u) (hv : Blank v) :
    IsPiece c (u ++ (t ++ v)) t := by
  have hblank {u : List Char} (hu : Blank u) : Sealed [c] u := sealed_of_blank hu (by simpa using hc)
  exact ⟨trim_pad hu ht hv, (hblank hu).append (hs.append (hblank hv)), hne⟩

/-- Joined pieces are cut where they were joined. -/
theorem splitTopLevel_pieces {c : Char} {n : List Char} (hc : Cutting [c] c)
    (hn : ∀ d ∈ n, isOrdinary d = true) {rs ts : List (List Char)} (h : List.Forall₂ (IsPiece c) rs ts) :
    splitTopLevel ((c :: n).intercalate rs) (c :: n) = ts := by
  have hsealed : ∀ r ∈ rs, Sealed [c] r := by
    induction h with
    | nil => simp
    | cons hr _ ih => exact List.forall_mem_cons.2 ⟨hr.sealed, ih⟩
  rw [splitTopLevel_intercalate hc hn hsealed]
  clear hsealed
  induction h with
  | nil => rfl
  | cons hr _ ih =>
    rw [List.map_cons, hr.trim_eq, List.filter_cons_of_pos (by simpa using hr.filled), ih]

end Code

namespace Content

/-- Loop variable and names taken out of the item, by the first parameter of a callback. -/
def pattern? (first : List Char) : Option (String × List String) :=
  if first.head? == some '\x7b' then do
    let inner ← balancedInner? first 0
    let names := (splitTopLevel inner [',']).map fun n =>
      trim (n.takeWhile fun c => c != ':' && c != '=')
    some ("item", (names.filter isIdentifier).map String.ofList)
  else some (untyped first, [])

def binders? (params : List Char) : Option (String × List String × Option String) := do
  let params := splitTopLevel (stripOuterParens params) [',']
  let first ← params.head?
  let (itemVar, destructured) ← pattern? first
  some (itemVar, destructured, (params[1]?).map untyped)

/-- A call of `map` on a path. -/
structure LoopText where
  array : List Char
  /-- Blanks, or the question mark of an optional chain. -/
  sign : List Char
  params : List Char
  body : List Char

namespace LoopText

def callback (l : LoopText) : List Char := l.params ++ ("=>".toList ++ l.body)

def front (l : LoopText) : List Char := l.array ++ l.sign

def text (l : LoopText) : List Char := l.front ++ (".map(".toList ++ (l.callback ++ [')']))

/-- No arrow in the parameters, and a body that is an expression. -/
structure Fits (l : LoopText) : Prop where
  array : IsPath l.array
  sign : Blank l.sign ∨ l.sign = ['?']
  params : Sealed ['='] l.params
  body : Sealed [] l.body
  noBlock : (trim l.body).head? ≠ some '\x7b'

variable {l : LoopText}

theorem Fits.sealed_callback (h : l.Fits) : Sealed [] l.callback :=
  (h.params.mono (by simp)).append ((sealed_of_ordinary (by decide)).append h.body)

theorem Fits.sealed_front (h : l.Fits) : Sealed [] l.front ∧ '(' ∉ l.front := by
  have hpath : Sealed [] l.array := h.array.sealed (by simp)
  have hparen : '(' ∉ l.array := by
    have hname {t : List Char} (ht : isIdentifier t = true) : '(' ∉ t := fun hm =>
      absurd (isIdentifierChar_of_mem ht hm) (by decide)
    have harray := h.array
    generalize l.array = t at harray
    induction harray with
    | name ht => exact hname ht
    | dot ht _ ih => simp [hname ht, ih]
    | link ht _ ih => simp [hname ht, ih]
  rw [LoopText.front, List.mem_append, not_or]
  rcases h.sign with hb | hq
  · refine ⟨hpath.append (sealed_of_blank hb (by simp)), hparen, fun hm => ?_⟩
    exact absurd (hb _ hm) (by decide)
  · rw [hq]
    exact ⟨hpath.append (sealed_of_ordinary (by decide)), hparen, by decide⟩

/-- Outside its parentheses an iteration holds no sign but those of a chain. -/
theorem Fits.sealed (h : l.Fits) {avoid : List Char} (ha : ∀ c ∈ avoid, isSign c = true) :
    Sealed avoid l.text := by
  have hnot {c : Char} (hc : isSign c = false) : c ∉ avoid := fun hm =>
    absurd (ha c hm) (by simp [hc])
  have hgroup : Sealed avoid ('(' :: (l.callback ++ [')'])) := .bracket (by decide) h.sealed_callback
  have hcall : Sealed avoid ('m' :: 'a' :: 'p' :: '(' :: (l.callback ++ [')'])) :=
    .plain (hnot (by decide)) (by decide) (.plain (hnot (by decide)) (by decide)
      (.plain (hnot (by decide)) (by decide) hgroup))
  have hdot := hnot (c := '.') (by decide)
  rw [text, front, List.append_assoc]
  refine (h.array.sealed ha).append ?_
  rcases h.sign with hb | hq
  · exact (sealed_pad ha hb).append (.plain hdot (by decide) hcall)
  · rw [hq]
    exact .link hdot hcall

theorem edged_text (h : IsPath l.array) : Edged l.text := by
  have hclose : Edged [')'] := edged_of_all (by simp) (by decide)
  have htext : l.text = l.array ++ ((l.sign ++ (".map(".toList ++ l.callback)) ++ [')']) := by
    simp [text, front, List.append_assoc]
  rw [htext]
  exact h.edged.between hclose _

/-- The question mark of a chain is no part of the array. -/
theorem Fits.array_eq (h : l.Fits) :
    ((trim l.front).reverse.dropWhile (· == '?')).reverse = l.array := by
  have hedge := h.array.edged
  have hkept : l.array.reverse.dropWhile (· == '?') = l.array.reverse := by
    obtain ⟨c, hc, hec⟩ := hedge.last
    rw [← List.head?_reverse] at hc
    obtain ⟨r, hr⟩ := List.head?_eq_some_iff.1 hc
    rw [hr, List.dropWhile_cons_of_neg]
    simpa using ne_of_isEdge hec (by decide)
  rcases h.sign with hb | hq
  · have htrim : trim l.front = l.array := by
      simpa [front] using trim_pad blank_nil hedge.trimmed hb
    rw [htrim, hkept, List.reverse_reverse]
  · have hfront : l.front = l.array ++ ['?'] := by rw [front, hq]
    have htrimmed : Trimmed l.front := by
      rw [hfront]
      exact hedge.trimmed.between (trimmed_singleton (by decide)) hedge.ne_nil (by simp) []
    rw [htrimmed.trim_eq, hfront, List.reverse_append, List.reverse_singleton, List.singleton_append,
      List.dropWhile_cons_of_pos rfl, hkept, List.reverse_reverse]

theorem Fits.find_map (h : l.Fits) :
    findTopLevel? l.text ".map(".toList = some l.front.length :=
  findTopLevel?_map h.sealed_front.1 h.sealed_front.2 _

/-- The head of the loop comes from the path and the parameters alone; the body is what stands behind the
arrow. -/
theorem Fits.head (h : l.Fits) : loopHead? l.text =
    (binders? l.params).map fun b =>
      ({ array := code l.array, itemVar := b.1, destructured := b.2.1, indexVar := b.2.2 },
        stripOuterParens (trim l.body)) := by
  have hdrop : l.text.drop (l.front.length + 4) = '(' :: (l.callback ++ ')' :: []) := by
    have htext : l.text = (l.front ++ ".map".toList) ++ ('(' :: (l.callback ++ [')'])) := by
      simp [text]
    have hlen : l.front.length + 4 = (l.front ++ ".map".toList).length := by simp
    rw [htext, hlen, List.drop_left]
  have hclose : balancedEnd? l.text (l.front.length + 4) =
      some (l.front.length + 4 + (l.callback.length + 1)) := by
    rw [balancedEnd?, hdrop, balancedLength?_group (by decide) h.sealed_callback]
    rfl
  have hlength : l.text.length = l.front.length + 4 + (l.callback.length + 1) + 1 := by
    simp only [text, List.length_append, List.length_cons, List.length_nil, String.length_toList]
    have : ".map(".length = 5 := by decide
    omega
  have hrest : l.text.drop (l.front.length + 4 + (l.callback.length + 1) + 1) = [] := by
    rw [← hlength, List.drop_length]
  have hslice : slice l.text (l.front.length + 4 + 1) (l.front.length + 4 + (l.callback.length + 1)) =
      l.callback := by
    have hpre : l.text = (l.front ++ ".map(".toList) ++ (l.callback ++ [')']) := by simp [text]
    have hlen : (l.front ++ ".map(".toList).length = l.front.length + 4 + 1 := by simp
    have hcut := slice_append_left (l.front ++ ".map(".toList) l.callback [')']
    rw [← hpre, hlen] at hcut
    have hstop : l.front.length + 4 + 1 + l.callback.length =
        l.front.length + 4 + (l.callback.length + 1) := by omega
    rwa [hstop] at hcut
  have hcut : Cutting ['='] '=' := ⟨by simp, by decide, by decide⟩
  have harrow : findTopLevel? l.callback "=>".toList = some l.params.length :=
    h.params.findTopLevel?_append hcut ['>'] l.body
  have hparams : l.callback.take l.params.length = l.params := List.take_left
  have hbody : l.callback.drop (l.params.length + 2) = l.body := by
    have hpre : l.callback = (l.params ++ "=>".toList) ++ l.body := by simp [LoopText.callback]
    have hlen : l.params.length + 2 = (l.params ++ "=>".toList).length := by simp
    rw [hpre, hlen, List.drop_left]
  have hfront : l.text.take l.front.length = l.front := List.take_left
  have hblock : ((trim l.body).head? == some '\x7b') = false := by
    simpa using h.noBlock
  have hempty : trim ([] : List Char) = [] := rfl
  simp only [loopHead?, h.find_map, hclose, hrest, hslice, harrow, hparams, hbody, hfront, h.array_eq,
    hblock, hempty, Option.bind_eq_bind, Option.bind_some, List.isEmpty_nil, Bool.not_true,
    Bool.false_eq_true, if_false, binders?]
  cases hps : splitTopLevel (stripOuterParens l.params) [','] with
  | nil => rfl
  | cons first rest =>
    simp only [List.head?_cons, Option.bind_some, pattern?]
    split
    · cases balancedInner? first 0 <;> rfl
    · rfl

end LoopText

end Content

end JsxToJinja
