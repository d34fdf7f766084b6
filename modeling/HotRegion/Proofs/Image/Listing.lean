import HotRegion.Image.Listing
import HotRegion.Proofs.Text.Hexadecimal
import HotRegion.Proofs.Text.Splitting
import Mathlib.Data.List.Forall2
import Mathlib.Data.List.TakeWhile

/-!
# The grammar of listings

A listing is a sequence of tokens with blanks and comments around them, and each token is a numeral for
a word. Whether a text is one can be said line by line, by its tokens, or from its start to its end, by
what it is laid out of. The reader takes just these texts, with the words in the order in which they
stand there; of any other text it names the first token that is no word.

## Key results

- `word?_eq_some_iff`: the tokens that are words
- `linesWords_of_writes`, `linesWords_of_firstBad`: what is read of lines of tokens
- `laysOut_iff`: the grammar of a whole text
- `parseListing_exact`: the texts that are listings, and the error that the others give
-/

namespace HotRegion.Image

open Text

variable {token line text note : List Char} {tokens : List (List Char)}
  {lines : List (List (List Char))} {w : UInt32} {ws : List UInt32} {n : Nat} {c : Char}

/-! ## Words -/

/-- The token is a numeral for the word: a hexadecimal mark or none, a plus sign or none, and one or
more digits. -/
def Writes (token : List Char) (w : UInt32) : Prop :=
  ∃ mark sign digits, token = mark ++ sign ++ digits ∧ mark ∈ [[], ['0', 'x'], ['0', 'X']] ∧
    sign ∈ [[], ['+']] ∧ HexNumber digits w.toNat

/-- A word may be marked with either letter. -/
theorem afterHexMark?_eq_some {rest : List Char} (h : afterHexMark? token = some rest) :
    token = ['0', 'x'] ++ rest ∨ token = ['0', 'X'] ++ rest := by
  unfold afterHexMark? at h
  split at h
  · cases h
    exact .inl rfl
  · cases h
    exact .inr rfl
  · cases h

/-- A numeral without a mark does not seem to have one. -/
theorem afterHexMark?_numeral {sign digits : List Char} (hsign : sign ∈ [[], ['+']])
    (hdigits : HexNumber digits n) : afterHexMark? (sign ++ digits) = none := by
  rw [Option.eq_none_iff_forall_ne_some]
  intro rest hrest
  simp only [List.mem_cons, List.not_mem_nil, or_false] at hsign
  rcases hsign with rfl | rfl
  · rw [List.nil_append] at hrest
    rcases afterHexMark?_eq_some hrest with rfl | rfl
    · exact hdigits.not_mem (by decide) (List.mem_cons_of_mem _ List.mem_cons_self)
    · exact hdigits.not_mem (by decide) (List.mem_cons_of_mem _ List.mem_cons_self)
  · rcases afterHexMark?_eq_some hrest with heq | heq <;> cases heq

/-- A token is read as a word just if it writes it. -/
theorem word?_eq_some_iff : word? token = some w ↔ Writes token w := by
  -- The digits behind the mark may have a sign of their own.
  have hnumber : ∀ cs : List Char, (numeral? 16 0x100000000 cs).map UInt32.ofNat = some w ↔
      ∃ sign digits, cs = sign ++ digits ∧ sign ∈ [[], ['+']] ∧ HexNumber digits w.toNat := by
    intro cs
    simp only [Option.map_eq_some_iff, numeral?_eq_some_iff]
    constructor
    · rintro ⟨n, ⟨hlt, digits, hcs, hdigits⟩, rfl⟩
      rw [UInt32.toNat_ofNat_of_lt' hlt]
      rcases hcs with rfl | rfl
      · exact ⟨[], cs, rfl, by simp, hdigits⟩
      · exact ⟨['+'], digits, rfl, by simp, hdigits⟩
    · rintro ⟨sign, digits, rfl, hsign, hdigits⟩
      refine ⟨w.toNat, ⟨w.toNat_lt, digits, ?_, hdigits⟩, UInt32.ofNat_toNat⟩
      simp only [List.mem_cons, List.not_mem_nil, or_false] at hsign
      rcases hsign with rfl | rfl
      · exact .inl rfl
      · exact .inr rfl
  unfold word?
  rw [hnumber]
  constructor
  · rintro ⟨sign, digits, hrest, hsign, hdigits⟩
    cases hmark : afterHexMark? token with
    | none =>
      rw [hmark] at hrest
      exact ⟨[], sign, digits, hrest, by simp, hsign, hdigits⟩
    | some rest =>
      rw [hmark, Option.getD_some] at hrest
      subst hrest
      rcases afterHexMark?_eq_some hmark with rfl | rfl
      · exact ⟨['0', 'x'], sign, digits, (List.append_assoc ..).symm, by simp, hsign, hdigits⟩
      · exact ⟨['0', 'X'], sign, digits, (List.append_assoc ..).symm, by simp, hsign, hdigits⟩
  · rintro ⟨mark, sign, digits, rfl, hmark, hsign, hdigits⟩
    refine ⟨sign, digits, ?_, hsign, hdigits⟩
    simp only [List.mem_cons, List.not_mem_nil, or_false] at hmark
    rcases hmark with rfl | rfl | rfl
    · rw [List.nil_append, afterHexMark?_numeral hsign hdigits, Option.getD_none]
    · rfl
    · rfl

/-- The characters of a word neither end it nor begin a comment. -/
theorem Writes.solid (h : Writes token w) : ∀ c ∈ token, isBlank c = false ∧ c ≠ '#' := by
  obtain ⟨mark, sign, digits, rfl, hmark, hsign, hdigits⟩ := h
  have hsolid : ∀ {cs : List Char}, (cs.all fun c => !isBlank c && c != '#') = true →
      ∀ c ∈ cs, isBlank c = false ∧ c ≠ '#' := fun h => by simpa using h
  have hmarks : ∀ mark ∈ [[], ['0', 'x'], ['0', 'X']],
      (mark.all fun c => !isBlank c && c != '#') = true := by decide
  have hsigns : ∀ sign ∈ [[], ['+']], (sign.all fun c => !isBlank c && c != '#') = true := by decide
  have hletters : ∀ d : Fin 16, (isBlank (Nat.digitChar d) = false ∧ Nat.digitChar d ≠ '#') ∧
      isBlank (Nat.digitChar d).toUpper = false ∧ (Nat.digitChar d).toUpper ≠ '#' := by decide
  intro c hc
  simp only [List.mem_append] at hc
  rcases hc with (hc | hc) | hc
  · exact hsolid (hmarks mark hmark) c hc
  · exact hsolid (hsigns sign hsign) c hc
  · obtain ⟨d, hd, rfl | rfl⟩ := hdigits.isHexDigit c hc
    · exact (hletters ⟨d, hd⟩).1
    · exact (hletters ⟨d, hd⟩).2

/-- The token of a word is not empty. -/
theorem Writes.ne_nil (h : Writes token w) : token ≠ [] := by
  obtain ⟨mark, sign, digits, rfl, -, -, hdigits⟩ := h
  simp [hdigits.ne_nil]

/-! ## Lines of tokens -/

/-- The tokens of a text, line by line: the runs of what stands on a line before the first `#`. -/
def HasTokens (text : List Char) (lines : List (List (List Char))) : Prop :=
  ∃ ls, HasLines text ls ∧
    List.Forall₂ (fun line tokens => HasRuns (line.takeWhile (· != '#')) tokens) ls lines

/-- The first token that is no word stands on line `n`. -/
def FirstBad (lines : List (List (List Char))) (n : Nat) (token : List Char) : Prop :=
  ∃ earlier before after later, lines = earlier ++ (before ++ token :: after) :: later ∧
    n = earlier.length + 1 ∧ (∀ tokens ∈ earlier, ∀ t ∈ tokens, ∃ w, Writes t w) ∧
    (∀ t ∈ before, ∃ w, Writes t w) ∧ ∀ w, ¬ Writes token w

/-- The tokens on one line. -/
def lineTokens (line : List Char) : List (List Char) :=
  blankSeparated (line.takeWhile (· != '#'))

/-- A text has just the tokens of its lines. -/
theorem hasTokens_iff : HasTokens text lines ↔ lines = (Text.lines text).map lineTokens := by
  simp only [HasTokens, hasLines_iff, hasRuns_iff, exists_eq_left]
  constructor
  · intro h
    have heq : List.Forall₂ (· = ·) ((Text.lines text).map lineTokens) lines :=
      List.forall₂_map_left_iff.2 (h.imp fun _ _ heq => heq.symm)
    rw [List.forall₂_eq_eq_eq] at heq
    exact heq.symm
  · rintro rfl
    exact List.forall₂_map_right_iff.2 (List.forall₂_same.2 fun _ _ => rfl)

/-! ## Reading lines -/

/-- A loop over related lists succeeds with the other list. -/
theorem mapM_of_forall₂ {α β ε : Type} {f : α → Except ε β} {l : List α} {r : List β}
    (h : List.Forall₂ (fun a b => f a = .ok b) l r) : l.mapM f = .ok r := by
  induction h with
  | nil => rfl
  | cons ha _ ih =>
    rw [List.mapM_cons, ha, ih]
    rfl

/-- The first element without a result decides. -/
theorem mapM_of_first {α β ε : Type} {f : α → Except ε β} {before after : List α} {a : α} {e : ε}
    (hbefore : ∀ x ∈ before, ∃ b, f x = .ok b) (ha : f a = .error e) :
    (before ++ a :: after).mapM f = .error e := by
  induction before with
  | nil =>
    rw [List.nil_append, List.mapM_cons, ha]
    rfl
  | cons x before ih =>
    obtain ⟨b, hb⟩ := hbefore x List.mem_cons_self
    rw [List.cons_append, List.mapM_cons, hb, ih fun y hy => hbefore y (List.mem_cons_of_mem _ hy)]
    rfl

/-- A line of words is read as these words. -/
theorem lineWords_of_writes (h : List.Forall₂ Writes (lineTokens line) ws) :
    lineWords line = .ok ws := by
  refine mapM_of_forall₂ (h.imp fun token w hw => ?_)
  rw [word?_eq_some_iff.2 hw]

/-- A line is refused for its first token that is no word. -/
theorem lineWords_of_bad {before after : List (List Char)}
    (hline : lineTokens line = before ++ token :: after)
    (hbefore : ∀ t ∈ before, ∃ w, Writes t w) (hbad : ∀ w, ¬ Writes token w) :
    lineWords line = .error token := by
  have hnone : word? token = none :=
    Option.eq_none_iff_forall_ne_some.2 fun w hw => hbad w (word?_eq_some_iff.1 hw)
  unfold lineWords
  rw [← lineTokens, hline]
  refine mapM_of_first (fun t ht => ?_) (by rw [hnone])
  obtain ⟨w, hw⟩ := hbefore t ht
  exact ⟨w, by rw [word?_eq_some_iff.2 hw]⟩

/-- Tokens of words have words. -/
theorem exists_words (h : ∀ t ∈ tokens, ∃ w, Writes t w) : ∃ ws, List.Forall₂ Writes tokens ws := by
  induction tokens with
  | nil => exact ⟨[], .nil⟩
  | cons t tokens ih =>
    obtain ⟨w, hw⟩ := h t List.mem_cons_self
    obtain ⟨ws, hws⟩ := ih fun u hu => h u (List.mem_cons_of_mem _ hu)
    exact ⟨w :: ws, .cons hw hws⟩

/-- Related lists are cut where the first one is. -/
theorem forall₂_append_left {α β : Type} {R : α → β → Prop} {l₁ l₂ : List α} {r : List β}
    (h : List.Forall₂ R (l₁ ++ l₂) r) :
    ∃ r₁ r₂, r = r₁ ++ r₂ ∧ List.Forall₂ R l₁ r₁ ∧ List.Forall₂ R l₂ r₂ := by
  induction l₁ generalizing r with
  | nil => exact ⟨[], r, rfl, .nil, h⟩
  | cons a l₁ ih =>
    obtain ⟨b, r', hab, hrest, rfl⟩ := List.forall₂_cons_left_iff.1 h
    obtain ⟨r₁, r₂, rfl, h₁, h₂⟩ := ih hrest
    exact ⟨b :: r₁, r₂, rfl, .cons hab h₁, h₂⟩

/-- Lines of words are read. -/
theorem linesWords_of_writes {ls : List (List Char)} (n : Nat)
    (h : List.Forall₂ Writes (ls.map lineTokens).flatten ws) : linesWords n ls = .ok ws := by
  induction ls generalizing n ws with
  | nil =>
    cases h
    rfl
  | cons line ls ih =>
    rw [List.map_cons, List.flatten_cons] at h
    obtain ⟨words, rest, rfl, hline, hrest⟩ := forall₂_append_left h
    rw [linesWords, lineWords_of_writes hline, ih (n + 1) hrest]
    rfl

/-- The first token that is no word is reported, with the number of its line. -/
theorem linesWords_of_firstBad {ls : List (List Char)} {k : Nat} (n : Nat)
    (h : FirstBad (ls.map lineTokens) k token) :
    linesWords (n + 1) ls = .error (.badWord (n + k) (String.ofList token)) := by
  obtain ⟨earlier, before, after, later, hlines, rfl, hearlier, hbefore, hbad⟩ := h
  induction earlier generalizing n ls with
  | nil =>
    obtain ⟨line, ls, rfl, hline, -⟩ := List.map_eq_cons_iff.1 hlines
    rw [linesWords, lineWords_of_bad hline hbefore hbad]
    rfl
  | cons tokens earlier ih =>
    obtain ⟨line, ls, rfl, hline, hrest⟩ := List.map_eq_cons_iff.1 hlines
    obtain ⟨words, hwords⟩ := exists_words (hearlier tokens List.mem_cons_self)
    rw [linesWords, lineWords_of_writes (hline ▸ hwords),
      ih (n + 1) hrest fun ts hts => hearlier ts (List.mem_cons_of_mem _ hts), List.length_cons]
    simp only [Except.map]
    congr 2
    omega

/-- If not all have a property, there is a first that does not. -/
theorem exists_first {α : Type} {P : α → Prop} {l : List α} (h : ¬ ∀ a ∈ l, P a) :
    ∃ before a after, l = before ++ a :: after ∧ (∀ x ∈ before, P x) ∧ ¬ P a := by
  induction l with
  | nil => exact absurd (fun _ ha => absurd ha List.not_mem_nil) h
  | cons a l ih =>
    by_cases ha : P a
    · obtain ⟨before, x, after, rfl, hbefore, hx⟩ := ih fun hl => h (List.forall_mem_cons.2 ⟨ha, hl⟩)
      exact ⟨a :: before, x, after, rfl, List.forall_mem_cons.2 ⟨ha, hbefore⟩, hx⟩
    · exact ⟨[], a, l, rfl, fun _ hx => absurd hx List.not_mem_nil, ha⟩

/-- Either all tokens are words, or there is a first that is none. -/
theorem writes_or_firstBad (lines : List (List (List Char))) :
    (∃ ws, List.Forall₂ Writes lines.flatten ws) ∨ ∃ n token, FirstBad lines n token := by
  by_cases h : ∀ tokens ∈ lines, ∀ t ∈ tokens, ∃ w, Writes t w
  · refine .inl (exists_words fun t ht => ?_)
    obtain ⟨tokens, htokens, ht⟩ := List.mem_flatten.1 ht
    exact h tokens htokens t ht
  · obtain ⟨earlier, tokens, later, hlines, hearlier, htokens⟩ := exists_first h
    obtain ⟨before, t, after, rfl, hbefore, ht⟩ := exists_first htokens
    exact .inr ⟨_, t, earlier, before, after, later, hlines, rfl, hearlier, hbefore,
      not_exists.1 ht⟩

/-- What a listing reads as, by its tokens. -/
theorem parseListing_of_hasTokens {text : String} (h : HasTokens text.toList lines) :
    (∀ ws, parseListing text = .ok ws ↔ List.Forall₂ Writes lines.flatten ws) ∧
    ∀ e, parseListing text = .error e ↔
      ∃ n token, e = .badWord n (String.ofList token) ∧ FirstBad lines n token := by
  have hlines := hasTokens_iff.1 h
  subst hlines
  have hok : ∀ ws, List.Forall₂ Writes ((Text.lines text.toList).map lineTokens).flatten ws →
      parseListing text = .ok ws := fun ws hws => linesWords_of_writes 1 hws
  have herror : ∀ n token, FirstBad ((Text.lines text.toList).map lineTokens) n token →
      parseListing text = .error (.badWord n (String.ofList token)) := fun n token hbad => by
    have hread := linesWords_of_firstBad 0 hbad
    simp only [Nat.zero_add] at hread
    exact hread
  -- Both outcomes are determined, so each excludes the other.
  rcases writes_or_firstBad ((Text.lines text.toList).map lineTokens) with
    ⟨ws, hws⟩ | ⟨n, token, hbad⟩
  · refine ⟨fun ws' => ⟨fun hparse => ?_, hok ws'⟩, fun e => ⟨fun hparse => ?_, ?_⟩⟩
    · rw [hok ws hws] at hparse
      exact Except.ok.inj hparse ▸ hws
    · rw [hok ws hws] at hparse
      cases hparse
    · rintro ⟨n, token, rfl, hbad⟩
      exact herror n token hbad
  · refine ⟨fun ws' => ⟨fun hparse => ?_, hok ws'⟩, fun e => ⟨fun hparse => ?_, ?_⟩⟩
    · rw [herror n token hbad] at hparse
      cases hparse
    · rw [herror n token hbad] at hparse
      exact ⟨n, token, (Except.error.inj hparse).symm, hbad⟩
    · rintro ⟨n, token, rfl, hbad⟩
      exact herror n token hbad

/-! ## Layouts -/

/-- The text lays out the words: each is written by a token, with a blank, a comment or the end of the
text behind it, and around them there are blanks, which line ends are too, and comments, which run to
the end of a line. -/
inductive LaysOut : List Char → List UInt32 → Prop where
  | nil : LaysOut [] []
  | blank {c : Char} {text : List Char} {ws : List UInt32} (h : isBlank c = true)
      (rest : LaysOut text ws) : LaysOut (c :: text) ws
  | comment {note text : List Char} {ws : List UInt32} (h : '\n' ∉ note) (rest : LaysOut text ws) :
      LaysOut ('#' :: note ++ '\n' :: text) ws
  | lastComment {note : List Char} (h : '\n' ∉ note) : LaysOut ('#' :: note) []
  | word {token text : List Char} {w : UInt32} {ws : List UInt32} (h : Writes token w)
      (stops : ∀ c ∈ text.head?, isBlank c = true ∨ c = '#') (rest : LaysOut text ws) :
      LaysOut (token ++ text) (w :: ws)

/-- The tokens of a text. -/
def textTokens (text : List Char) : List (List Char) := (Text.lines text).flatMap lineTokens

/-- The tokens of the first line and those of the others are all tokens. -/
theorem flatMap_lineTokens (ls : List (List Char)) :
    lineTokens (ls.headD []) ++ ls.tail.flatMap lineTokens = ls.flatMap lineTokens := by
  cases ls <;> rfl

/-- Blanks before a text add no token. -/
theorem textTokens_blank (h : isBlank c = true) (text : List Char) :
    textTokens (c :: text) = textTokens text := by
  have hne : c ≠ '#' := by
    rintro rfl
    cases h
  have hline : ∀ line, lineTokens (c :: line) = lineTokens line := fun line => by
    rw [lineTokens, List.takeWhile_cons_of_pos (by simpa using hne), blankSeparated_blank h]
    rfl
  rcases lines_cons_cases c text with heq | ⟨rest, rfl, heq⟩ | heq
  · rw [textTokens, heq]
    rfl
  · rw [textTokens, textTokens, heq, lines_feed]
  · rw [textTokens, heq, List.flatMap_cons, hline, flatMap_lineTokens]
    rfl

/-- A word before a blank, a comment or the end is one token. -/
theorem textTokens_word (hne : token ≠ []) (hsolid : ∀ c ∈ token, isBlank c = false ∧ c ≠ '#')
    (hstops : ∀ c ∈ text.head?, isBlank c = true ∨ c = '#') :
    textTokens (token ++ text) = token :: textTokens text := by
  have hfeed : '\n' ∉ token := fun h => absurd (hsolid _ h).1 (by decide)
  have hreturn : ∀ rest, token.getLast? = some '\r' → text ≠ '\n' :: rest := fun _ h =>
    absurd (hsolid _ (List.mem_of_getLast? h)).1 (by decide)
  have hcode : ∀ c ∈ token, (c != '#') = true := fun c hc => by simpa using (hsolid c hc).2
  have hline : lineTokens (token ++ (Text.lines text).headD []) =
      token :: lineTokens ((Text.lines text).headD []) := by
    rw [lineTokens, List.takeWhile_append_of_pos hcode]
    refine blankSeparated_run hne (fun c hc => (hsolid c hc).1) fun c hc => ?_
    rw [List.head?_takeWhile] at hc
    obtain ⟨hc, hne⟩ := Option.filter_eq_some_iff.1 hc
    exact (hstops c (head?_first_line hc)).resolve_right (by simpa using hne)
  rw [textTokens, lines_append hne hfeed hreturn, List.flatMap_cons, hline, List.cons_append,
    flatMap_lineTokens]
  rfl

/-- A comment has no tokens. -/
theorem lineTokens_comment (note : List Char) : lineTokens ('#' :: note) = [] := by
  rw [lineTokens, List.takeWhile_cons_of_neg (by decide), blankSeparated_nil]

/-- A comment adds no token. -/
theorem textTokens_comment (h : '\n' ∉ note) (text : List Char) :
    textTokens ('#' :: note ++ '\n' :: text) = textTokens text := by
  by_cases hreturn : ('#' :: note).getLast? = some '\r'
  · obtain ⟨front, hfront⟩ := List.getLast?_eq_some_iff.1 hreturn
    obtain ⟨hfront', heq⟩ | ⟨front', rfl, rfl⟩ := List.cons_eq_append_iff.1 hfront
    · cases heq
    · have hlines : HasLines ('#' :: front' ++ '\r' :: '\n' :: text)
          (('#' :: front') :: Text.lines text) :=
        .returnFeed (by simpa using h) (hasLines_lines text)
      have hsame : '#' :: (front' ++ ['\r']) ++ '\n' :: text =
          '#' :: front' ++ '\r' :: '\n' :: text := by simp
      rw [textTokens, hsame, ← hlines.eq_lines, List.flatMap_cons, lineTokens_comment]
      rfl
  · have hlines : HasLines ('#' :: note ++ '\n' :: text) (('#' :: note) :: Text.lines text) :=
      .feed (by simpa using h) hreturn (hasLines_lines text)
    rw [textTokens, ← hlines.eq_lines, List.flatMap_cons, lineTokens_comment]
    rfl

/-- A comment at the end of the text adds no token. -/
theorem textTokens_lastComment (h : '\n' ∉ note) : textTokens ('#' :: note) = [] := by
  have hlines : HasLines ('#' :: note) ['#' :: note] := .unended (by simp) (by simpa using h)
  rw [textTokens, ← hlines.eq_lines, List.flatMap_singleton, lineTokens_comment]

/-- The tokens of a text that lays out words write them. -/
theorem LaysOut.writes (h : LaysOut text ws) : List.Forall₂ Writes (textTokens text) ws := by
  induction h with
  | nil => exact .nil
  | blank h _ ih => rwa [textTokens_blank h]
  | comment h _ ih => rwa [textTokens_comment h]
  | lastComment h =>
    rw [textTokens_lastComment h]
    exact .nil
  | word h stops _ ih =>
    rw [textTokens_word h.ne_nil h.solid stops]
    exact .cons h ih

/-- A text without a line end, or one cut at its first. -/
theorem splitAtFeed (text : List Char) :
    '\n' ∉ text ∨ ∃ note rest, text = note ++ '\n' :: rest ∧ '\n' ∉ note := by
  by_cases h : '\n' ∈ text
  · obtain ⟨note, rest, htext, hnote⟩ := List.eq_append_cons_of_mem h
    exact .inr ⟨note, rest, htext, hnote⟩
  · exact .inl h

/-- A text that starts with neither a blank nor a comment starts with a token. -/
theorem exists_token (hblank : ¬ isBlank c = true) (hcomment : c ≠ '#') (text : List Char) :
    ∃ token rest, c :: text = token ++ rest ∧ token ≠ [] ∧
      (∀ c ∈ token, isBlank c = false ∧ c ≠ '#') ∧ ∀ c ∈ rest.head?, isBlank c = true ∨ c = '#' := by
  let solid (c : Char) : Bool := !isBlank c && c != '#'
  have hsolid : ∀ c, solid c = true ↔ isBlank c = false ∧ c ≠ '#' := by simp [solid]
  refine ⟨c :: text.takeWhile solid, text.dropWhile solid, ?_, by simp, ?_, ?_⟩
  · rw [List.cons_append, List.takeWhile_append_dropWhile]
  · refine List.forall_mem_cons.2 ⟨⟨by simpa using hblank, hcomment⟩, fun c hc => ?_⟩
    exact (hsolid c).1 (List.mem_takeWhile_imp hc)
  · intro c hc
    have hstop : solid c = false := by
      have := List.head?_dropWhile_not solid text
      rw [hc] at this
      simpa using this
    simpa [solid, ← Bool.not_eq_false, or_iff_not_imp_left] using hstop

/-- A text whose tokens write words lays them out. -/
theorem laysOut_of_writes (text : List Char) (ws : List UInt32)
    (h : List.Forall₂ Writes (textTokens text) ws) : LaysOut text ws := by
  -- By induction on the length: a comment and a token take any number of characters.
  induction hlen : text.length using Nat.strongRecOn generalizing text ws with
  | ind n ih =>
  cases text with
  | nil =>
    cases h
    exact .nil
  | cons c text =>
    by_cases hblank : isBlank c = true
    · rw [textTokens_blank hblank] at h
      exact .blank hblank (ih _ (by simp [← hlen]) text ws h rfl)
    by_cases hcomment : c = '#'
    · subst hcomment
      rcases splitAtFeed text with hnote | ⟨note, rest, rfl, hnote⟩
      · rw [textTokens_lastComment hnote] at h
        cases h
        exact .lastComment hnote
      · rw [← List.cons_append, textTokens_comment hnote] at h
        exact .comment hnote (ih _ (by simp [← hlen]; omega) rest ws h rfl)
    · obtain ⟨token, rest, htext, hne, hsolid, hstops⟩ := exists_token hblank hcomment text
      rw [htext, textTokens_word hne hsolid hstops] at h
      obtain ⟨w, ws, hw, hrest, rfl⟩ := List.forall₂_cons_left_iff.1 h
      have hlt : rest.length < n := by
        rw [← hlen, htext, List.length_append]
        have := List.length_pos_of_ne_nil hne
        omega
      rw [htext]
      exact .word hw hstops (ih _ hlt rest ws hrest rfl)

/-- The grammar of a whole text is that of its tokens. -/
theorem laysOut_iff : LaysOut text ws ↔ List.Forall₂ Writes (textTokens text) ws :=
  ⟨LaysOut.writes, laysOut_of_writes text ws⟩

/-! ## The reader -/

/-- A printed word writes itself, with a mark or without. -/
theorem writes_hexDigits8 {mark : List Char} (hmark : mark ∈ [[], ['0', 'x'], ['0', 'X']])
    (w : UInt32) : Writes (mark ++ (hexDigits8 w.toNat).toList) w :=
  ⟨mark, [], (hexDigits8 w.toNat).toList, by simp, hmark, by simp, (hexNumber_hexDigits8 w).1⟩

/-- The reader takes just the texts whose tokens are words, or what is the same, that lay out words, and
returns them in reading order. Any other text is refused with the first token that is no word and the
number of its line. Words printed with eight digits are tokens that a listing may be laid out of. -/
theorem parseListing_exact (text : String) :
    (∃! lines, HasTokens text.toList lines) ∧
    (∀ lines, HasTokens text.toList lines →
      (∀ ws, parseListing text = .ok ws ↔ List.Forall₂ Writes lines.flatten ws) ∧
      ∀ e, parseListing text = .error e ↔
        ∃ n token, e = .badWord n (String.ofList token) ∧ FirstBad lines n token) ∧
    (∀ ws, parseListing text = .ok ws ↔ LaysOut text.toList ws) ∧
    ∀ w, (hexDigits8 w.toNat).toList.length = 8 ∧
      ∀ mark ∈ [[], ['0', 'x'], ['0', 'X']], Writes (mark ++ (hexDigits8 w.toNat).toList) w := by
  have htokens : HasTokens text.toList ((Text.lines text.toList).map lineTokens) :=
    hasTokens_iff.2 rfl
  refine ⟨⟨_, htokens, fun lines h => hasTokens_iff.1 h⟩,
    fun lines h => parseListing_of_hasTokens h, fun ws => ?_,
    fun w => ⟨(hexNumber_hexDigits8 w).2, fun mark hmark => writes_hexDigits8 hmark w⟩⟩
  rw [(parseListing_of_hasTokens htokens).1, laysOut_iff, textTokens, List.flatMap_def]

/-- A token in a comment does not count, so the first bad one stands on the second line. -/
theorem parseListing_exact_secondLine :
    HasTokens "0x1 +a # 12g\r\n0 12g 0x".toList
      [[['0', 'x', '1'], ['+', 'a']], [['0'], ['1', '2', 'g'], ['0', 'x']]] ∧
    parseListing "0x1 +a # 12g\r\n0 12g 0x" = .error (.badWord 2 "12g") := by
  have htokens : HasTokens "0x1 +a # 12g\r\n0 12g 0x".toList
      [[['0', 'x', '1'], ['+', 'a']], [['0'], ['1', '2', 'g'], ['0', 'x']]] :=
    hasTokens_iff.2 (by decide +kernel)
  refine ⟨htokens, (((parseListing_exact _).2.1 _ htokens).2 _).2 ⟨2, ['1', '2', 'g'], rfl, ?_⟩⟩
  refine ⟨[[['0', 'x', '1'], ['+', 'a']]], [['0']], [['0', 'x']], [], rfl, rfl, ?_, ?_, ?_⟩
  · simp only [← word?_eq_some_iff, ← Option.isSome_iff_exists]
    decide
  · simp only [← word?_eq_some_iff, ← Option.isSome_iff_exists]
    decide
  · intro w hw
    have hnone : word? ['1', '2', 'g'] = none := by decide
    rw [← word?_eq_some_iff, hnone] at hw
    cases hw

end HotRegion.Image
