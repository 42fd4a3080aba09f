import JsxToJinja.Proofs.Code.Logic
import JsxToJinja.Proofs.Jinja.Literals
import JsxToJinja.Proofs.Jinja.Writing
import JsxToJinja.Proofs.Text.Pieces

/-! Literals of code as literals of a template. What stands between single quotes is copied. Between
double quotes only the escape of the quote is read, so other escapes come out as two characters. -/
namespace JsxToJinja.Jinja
open JsxToJinja.Text JsxToJinja.Code

/-- Text between double quotes with no escapes but those of the quote. -/
inductive QuoteEscapes : List Char → Prop where
  | nil : QuoteEscapes []
  | plain {c : Char} {t : List Char} : c ≠ '\\' → c ≠ '\x22' → QuoteEscapes t → QuoteEscapes (c :: t)
  | quote {t : List Char} : QuoteEscapes t → QuoteEscapes ('\\' :: '\x22' :: t)

def readQuotes (t : List Char) : List Char := replaceAll ['\\', '\x22'] ['\x22'] t

theorem readQuotes_plain {c : Char} (h : c ≠ '\\') (t : List Char) :
    readQuotes (c :: t) = c :: readQuotes t :=
  replaceAll_miss (startsWith_of_head (by simpa using h) _) _

theorem readQuotes_quote (t : List Char) :
    readQuotes ('\\' :: '\x22' :: t) = '\x22' :: readQuotes t :=
  replaceAll_hit '\\' ['\x22'] ['\x22'] t

/-- A backslash before another character is copied. -/
theorem readQuotes_slash {t : List Char} (h : t.head? ≠ some '\x22') :
    readQuotes ('\\' :: t) = '\\' :: readQuotes t := by
  refine replaceAll_miss ?_ _
  cases t with
  | nil => rfl
  | cons c t =>
    have hc : c ≠ '\x22' := by simpa using h
    simpa [startsWith, List.isPrefixOf] using Ne.symm hc

theorem head?_ne_of_literalBody {q : Char} {t : List Char} (hq : q ≠ '\\') (h : LiteralBody q t) :
    t.head? ≠ some q := by
  cases h with
  | nil => simp
  | plain _ hc _ => simpa using hc
  | escape _ => simpa using Ne.symm hq

theorem readQuotes_escape {c : Char} {t : List Char} (hc : c ≠ '\x22') (h : LiteralBody '\x22' t) :
    readQuotes ('\\' :: c :: t) = '\\' :: c :: readQuotes t := by
  rw [readQuotes_slash (by simpa using hc)]
  by_cases hslash : c = '\\'
  · rw [hslash, readQuotes_slash (head?_ne_of_literalBody (by decide) h)]
  · rw [readQuotes_plain hslash]

theorem unescape_escape (c : Char) (t : List Char) : ∃ d, unescape ('\\' :: c :: t) = d :: unescape t := by
  rw [unescape]
  exact ⟨_, rfl⟩

/-- Both readings of escaped quotes agree. -/
theorem QuoteEscapes.readQuotes_eq {t : List Char} (h : QuoteEscapes t) :
    readQuotes t = unescape t := by
  induction h with
  | nil => rfl
  | plain hc _ _ ih => rw [readQuotes_plain hc, unescape_cons hc, ih]
  | quote _ ih =>
    rw [readQuotes_quote, ih]
    simp [unescape]

/-- Each escape of another character leaves one character too many. -/
theorem length_unescape_le {t : List Char} (h : LiteralBody '\x22' t) :
    (unescape t).length ≤ (readQuotes t).length ∧
      ((unescape t).length = (readQuotes t).length → QuoteEscapes t) := by
  induction h with
  | nil => exact ⟨Nat.le_refl _, fun _ => .nil⟩
  | @plain c t hc hq _ ih =>
    rw [readQuotes_plain hc, unescape_cons hc, List.length_cons, List.length_cons]
    exact ⟨Nat.succ_le_succ ih.1, fun he => .plain hc hq (ih.2 (Nat.succ.inj he))⟩
  | @escape c t ht ih =>
    obtain ⟨d, hd⟩ := unescape_escape c t
    rw [hd]
    by_cases hc : c = '\x22'
    · subst hc
      rw [readQuotes_quote, List.length_cons, List.length_cons]
      exact ⟨Nat.succ_le_succ ih.1, fun he => .quote (ih.2 (Nat.succ.inj he))⟩
    · rw [readQuotes_escape hc ht, List.length_cons, List.length_cons, List.length_cons]
      have hle := ih.1
      exact ⟨by omega, by omega⟩

/-- Escaped quotes are all that both readings agree on. -/
theorem readQuotes_eq_unescape_iff {t : List Char} (h : LiteralBody '\x22' t) :
    readQuotes t = unescape t ↔ QuoteEscapes t :=
  ⟨fun he => (length_unescape_le h).2 (by rw [he]), QuoteEscapes.readQuotes_eq⟩

/-- A literal is written on its own, without a look at the names. -/
theorem translateText_literal_eq (names : NameMap) {q : Char} {body : List Char} (hq : isQuote q = true)
    (hb : LiteralBody q body) :
    translateText names (q :: (body ++ [q])) =
      trim (literalText (translateWithin names (q :: (body ++ [q])).length) (q :: (body ++ [q]))) := by
  have hopen : q ≠ '(' := by
    rintro rfl
    cases hq
  have hstrip : stripOuterParens (q :: (body ++ [q])) = q :: (body ++ [q]) :=
    stripOuterParens_of_not_group (trimmed_literal hq body)
      (isGroup_of_head (by simpa using hopen))
  have hnested : Sealed ['?'] (q :: (body ++ [q])) := sealed_literal hq hb
  have hternary := hnested.splitTernary?_eq_none (by simp)
  rw [translateText, translateWithin, translateStep, hstrip, hternary]
  dsimp only
  rw [writeFrom_literal _ [] hq hb, writeFrom, List.append_nil, List.reverse_reverse]

theorem translateText_literal (names : NameMap) {q : Char} {body : List Char} (hq : isQuote q = true)
    (hb : LiteralBody q body) :
    ∃ write, translateText names (q :: (body ++ [q])) = trim (literalText write (q :: (body ++ [q]))) :=
  ⟨_, translateText_literal_eq names hq hb⟩

/-- A quoted literal becomes one literal in single quotes. It has the same value exactly if it is in
single quotes already or has no escapes but those of its quote. -/
theorem translated_literal_keeps_value_iff (names : NameMap) {q : Char} {body : List Char}
    (hq : q = '\x27' ∨ q = '\x22') (hb : LiteralBody q body) :
    ∃ out, translateText names (q :: (body ++ [q])) = '\x27' :: (out ++ ['\x27']) ∧
      LiteralBody '\x27' out ∧
      (stringLiteral? ('\x27' :: (out ++ ['\x27'])) = stringLiteral? (q :: (body ++ [q])) ↔
        q = '\x27' ∨ QuoteEscapes body) := by
  have hinner : groupInner (q :: (body ++ [q])) = body := groupInner_bracket _ _ _
  rcases hq with rfl | rfl
  · obtain ⟨write, h⟩ := translateText_literal names (by decide) hb
    refine ⟨body, ?_, hb, iff_of_true rfl (.inl rfl)⟩
    rw [h, literalText, hinner]
    exact (trimmed_literal (by decide) body).trim_eq
  · obtain ⟨write, h⟩ := translateText_literal names (by decide) hb
    have hbody : LiteralBody '\x27' (escapeQuoted (readQuotes body)) :=
      (spelled_escapeQuoted _).literalBody
    refine ⟨escapeQuoted (readQuotes body), ?_, hbody, ?_⟩
    · rw [h, literalText, hinner]
      · exact (trimmed_literal (by decide) _).trim_eq
      all_goals simp
    · rw [stringLiteral?_literal (by decide) (by decide) hbody,
        stringLiteral?_literal (by decide) (by decide) hb, (spelled_escapeQuoted _).unescape_eq,
        Option.some_inj, readQuotes_eq_unescape_iff hb, or_iff_right (by decide)]

/-- A line feed in double quotes comes out as a backslash and a letter. -/
theorem double_quoted_newline_differs :
    stringLiteral? (translateText {} "\x22a\\nb\x22".toList) = some "a\\nb".toList ∧
      stringLiteral? "\x22a\\nb\x22".toList = some "a\nb".toList := by
  decide

/-- An escaped quote of its own kind keeps the value. -/
theorem escaped_quote_keeps_value :
    QuoteEscapes "say \\\x22hi\\\x22".toList ∧
      ∃ out, translateText {} ('\x22' :: ("say \\\x22hi\\\x22".toList ++ ['\x22'])) =
        '\x27' :: (out ++ ['\x27']) ∧
        stringLiteral? ('\x27' :: (out ++ ['\x27'])) =
          stringLiteral? ('\x22' :: ("say \\\x22hi\\\x22".toList ++ ['\x22'])) := by
  have hescapes : QuoteEscapes "say \\\x22hi\\\x22".toList :=
    .plain (by decide) (by decide) <| .plain (by decide) (by decide) <|
      .plain (by decide) (by decide) <| .plain (by decide) (by decide) <| .quote <|
      .plain (by decide) (by decide) <| .plain (by decide) (by decide) <| .quote .nil
  have hbody : LiteralBody '\x22' "say \\\x22hi\\\x22".toList :=
    .plain (by decide) (by decide) <| .plain (by decide) (by decide) <|
      .plain (by decide) (by decide) <| .plain (by decide) (by decide) <| .escape <|
      .plain (by decide) (by decide) <| .plain (by decide) (by decide) <| .escape .nil
  obtain ⟨out, hout, -, hvalue⟩ := translated_literal_keeps_value_iff {} (.inr rfl) hbody
  exact ⟨hescapes, out, hout, hvalue.2 (.inr hescapes)⟩

end JsxToJinja.Jinja
