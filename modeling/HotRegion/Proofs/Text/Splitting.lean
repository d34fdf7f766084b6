import HotRegion.Text.Blank

/-!
# Lines and runs of a text

How a text falls into lines, and a line into runs of characters that are not blank, said by what the
pieces are put together to. Each text has just one such decomposition, and the functions find it.

## Key results

- `hasLines_iff`, `hasRuns_iff`: the functions against the decompositions
- `lines_append`: characters put in front of a text
-/

namespace HotRegion.Text

variable {c : Char} {cs line run text : List Char} {ls rs : List (List Char)}

/-! ## Lines -/

/-- The text is made of the lines. Each ends at a line feed or at a carriage return and a line feed;
only the last may lack its end, if there is something on it. -/
inductive HasLines : List Char → List (List Char) → Prop where
  | nil : HasLines [] []
  | unended {line : List Char} (ne : line ≠ []) (noFeed : '\n' ∉ line) : HasLines line [line]
  | feed {line text : List Char} {ls : List (List Char)} (noFeed : '\n' ∉ line)
      (noReturn : line.getLast? ≠ some '\r') (rest : HasLines text ls) :
      HasLines (line ++ '\n' :: text) (line :: ls)
  | returnFeed {line text : List Char} {ls : List (List Char)} (noFeed : '\n' ∉ line)
      (rest : HasLines text ls) : HasLines (line ++ '\r' :: '\n' :: text) (line :: ls)

@[simp] theorem lines_feed (text : List Char) : lines ('\n' :: text) = [] :: lines text := by
  rw [lines]

@[simp] theorem lines_returnFeed (text : List Char) :
    lines ('\r' :: '\n' :: text) = [] :: lines text := by
  rw [lines]

/-- A character that is no part of a line end belongs to the first line. -/
theorem lines_cons (hfeed : c ≠ '\n') (hreturn : ∀ rest, c = '\r' → cs ≠ '\n' :: rest) :
    lines (c :: cs) = (c :: (lines cs).headD []) :: (lines cs).tail := by
  rw [lines]
  · cases lines cs <;> rfl
  · exact hfeed
  · exact hreturn

/-- A character ends the first line, is part of its end or belongs to it. -/
theorem lines_cons_cases (c : Char) (cs : List Char) :
    lines (c :: cs) = [] :: lines cs ∨
      (∃ rest, cs = '\n' :: rest ∧ lines (c :: cs) = [] :: lines rest) ∨
      lines (c :: cs) = (c :: (lines cs).headD []) :: (lines cs).tail := by
  by_cases hfeed : c = '\n'
  · subst hfeed
    exact .inl (lines_feed cs)
  by_cases hreturn : ∃ rest, c = '\r' ∧ cs = '\n' :: rest
  · obtain ⟨rest, rfl, rfl⟩ := hreturn
    exact .inr (.inl ⟨rest, rfl, lines_returnFeed rest⟩)
  · exact .inr (.inr (lines_cons hfeed fun rest hc hcs => hreturn ⟨rest, hc, hcs⟩))

/-- The first line starts as the text does. -/
theorem head?_first_line (h : c ∈ ((lines cs).headD []).head?) : c ∈ cs.head? := by
  cases cs with
  | nil => exact h
  | cons d cs =>
    rcases lines_cons_cases d cs with heq | ⟨rest, -, heq⟩ | heq
    · rw [heq] at h
      cases h
    · rw [heq] at h
      cases h
    · rw [heq] at h
      exact h

/-- Characters without a line end belong to the first line. -/
theorem lines_append (hne : line ≠ []) (hfeed : '\n' ∉ line)
    (hreturn : ∀ rest, line.getLast? = some '\r' → cs ≠ '\n' :: rest) :
    lines (line ++ cs) = (line ++ (lines cs).headD []) :: (lines cs).tail := by
  induction line with
  | nil => exact absurd rfl hne
  | cons c line ih =>
    have hc : c ≠ '\n' := fun h => hfeed (h ▸ List.mem_cons_self)
    cases line with
    | nil =>
      refine lines_cons hc fun rest h => hreturn rest ?_
      rw [h]
      rfl
    | cons d line =>
      have hd : d ≠ '\n' := fun h => hfeed (h ▸ List.mem_cons_of_mem _ List.mem_cons_self)
      have hrest := ih (by simp) (fun h => hfeed (List.mem_cons_of_mem _ h)) (by simpa using hreturn)
      have hmore : ∀ rest, c = '\r' → d :: line ++ cs ≠ '\n' :: rest := fun _ _ h =>
        hd (List.cons.inj h).1
      rw [List.cons_append, lines_cons hc hmore, hrest]
      rfl

/-- A text has no other lines than it is split into. -/
theorem HasLines.eq_lines (h : HasLines text ls) : ls = lines text := by
  induction h with
  | nil => rfl
  | @unended line ne noFeed =>
    have hline : lines (line ++ []) = (line ++ (lines []).headD []) :: (lines []).tail :=
      lines_append ne noFeed (by simp)
    simpa [lines] using hline.symm
  | @feed line text ls noFeed noReturn _ ih =>
    rw [ih]
    by_cases hne : line = []
    · rw [hne, List.nil_append, lines_feed]
    · rw [lines_append hne noFeed fun _ h => absurd h noReturn]
      simp
  | @returnFeed line text ls noFeed _ ih =>
    rw [ih]
    by_cases hne : line = []
    · rw [hne, List.nil_append, lines_returnFeed]
    · rw [lines_append hne noFeed (by simp)]
      simp

/-- A character that ends no line goes to the first line. -/
theorem HasLines.cons (h : HasLines cs ls) (hfeed : c ≠ '\n')
    (hreturn : ∀ rest, c = '\r' → cs ≠ '\n' :: rest) :
    HasLines (c :: cs) ((c :: ls.headD []) :: ls.tail) := by
  have hmem : ∀ {line : List Char}, '\n' ∉ line → '\n' ∉ c :: line := fun hline => by
    simpa using ⟨Ne.symm hfeed, hline⟩
  cases h with
  | nil => exact .unended (by simp) (hmem List.not_mem_nil)
  | unended _ noFeed => exact .unended (by simp) (hmem noFeed)
  | @feed line _ _ noFeed noReturn rest =>
    refine .feed (hmem noFeed) ?_ rest
    cases line with
    | nil => exact fun h => hreturn _ (Option.some.inj h) rfl
    | cons d line => simpa using noReturn
  | returnFeed noFeed rest => exact .returnFeed (hmem noFeed) rest

/-- A text has the lines that it is split into. -/
theorem hasLines_lines (text : List Char) : HasLines text (lines text) := by
  induction text using lines.induct with
  | case1 => exact .nil
  | case2 text ih =>
    rw [lines_feed]
    change HasLines ([] ++ '\n' :: text) _
    exact .feed List.not_mem_nil (by simp) ih
  | case3 text ih =>
    rw [lines_returnFeed]
    change HasLines ([] ++ '\r' :: '\n' :: text) _
    exact .returnFeed List.not_mem_nil ih
  | case4 c cs hfeed hreturn line rest _ ih =>
    rw [lines_cons hfeed hreturn]
    exact ih.cons hfeed hreturn
  | case5 c cs hfeed hreturn _ ih =>
    rw [lines_cons hfeed hreturn]
    exact ih.cons hfeed hreturn

/-- Every text has its lines, and no others. -/
theorem hasLines_iff : HasLines text ls ↔ ls = lines text :=
  ⟨HasLines.eq_lines, fun h => h ▸ hasLines_lines text⟩

/-! ## Runs -/

/-- The runs are what is left of a line between its blanks: the longest sequences of characters that
are not blank. -/
inductive HasRuns : List Char → List (List Char) → Prop where
  | nil : HasRuns [] []
  | blank {c : Char} {cs : List Char} {rs : List (List Char)} (h : isBlank c = true)
      (rest : HasRuns cs rs) : HasRuns (c :: cs) rs
  | run {run cs : List Char} {rs : List (List Char)} (ne : run ≠ [])
      (solid : ∀ c ∈ run, isBlank c = false) (stops : ∀ c ∈ cs.head?, isBlank c = true)
      (rest : HasRuns cs rs) : HasRuns (run ++ cs) (run :: rs)

/-- The run at the start of a text, which may be empty, and the later runs. -/
def splitRuns : List Char → List Char × List (List Char)
  | [] => ([], [])
  | c :: cs =>
    if isBlank c then ([], consRun (splitRuns cs).1 (splitRuns cs).2)
    else (c :: (splitRuns cs).1, (splitRuns cs).2)

/-- The runs of a text are its first one and the others. -/
theorem blankSeparated_eq (cs : List Char) :
    blankSeparated cs = consRun (splitRuns cs).1 (splitRuns cs).2 := by
  have hfold : ∀ f : Char → List Char × List (List Char) → List Char × List (List Char),
      (∀ c p, f c p = if isBlank c then ([], consRun p.1 p.2) else (c :: p.1, p.2)) →
        cs.foldr f ([], []) = splitRuns cs := by
    intro f hf
    induction cs with
    | nil => rfl
    | cons c cs ih => rw [List.foldr_cons, hf, ih, splitRuns]
  unfold blankSeparated
  rw [hfold _ fun c p => rfl]

@[simp] theorem blankSeparated_nil : blankSeparated [] = [] := rfl

/-- A text that begins with a blank has no first run. -/
theorem splitRuns_of_stops (h : ∀ c ∈ cs.head?, isBlank c = true) :
    splitRuns cs = ([], blankSeparated cs) := by
  cases cs with
  | nil => rfl
  | cons c cs =>
    have hc : isBlank c = true := h c rfl
    rw [blankSeparated_eq, splitRuns, if_pos hc]
    rfl

/-- A blank is dropped. -/
theorem blankSeparated_blank (h : isBlank c = true) : blankSeparated (c :: cs) = blankSeparated cs := by
  rw [blankSeparated_eq, splitRuns, if_pos h, blankSeparated_eq]
  rfl

/-- A run that a blank or the end of the text follows. -/
theorem blankSeparated_run (hne : run ≠ []) (hsolid : ∀ c ∈ run, isBlank c = false)
    (hstops : ∀ c ∈ cs.head?, isBlank c = true) :
    blankSeparated (run ++ cs) = run :: blankSeparated cs := by
  have hsplit : splitRuns (run ++ cs) = (run, blankSeparated cs) := by
    clear hne
    induction run with
    | nil => exact splitRuns_of_stops hstops
    | cons c run ih =>
      have hc : isBlank c = false := hsolid c List.mem_cons_self
      have hrun := ih fun d hd => hsolid d (List.mem_cons_of_mem _ hd)
      rw [List.cons_append, splitRuns, if_neg (by simp [hc]), hrun]
  rw [blankSeparated_eq, hsplit, consRun, if_neg (by simpa using hne)]

/-- A text has no other runs than it is split into. -/
theorem HasRuns.eq_blankSeparated (h : HasRuns cs rs) : rs = blankSeparated cs := by
  induction h with
  | nil => rfl
  | blank h _ ih => rw [blankSeparated_blank h, ih]
  | run ne solid stops _ ih => rw [blankSeparated_run ne solid stops, ih]

/-- Another character makes the first run longer, or is one, or is dropped. -/
theorem HasRuns.cons (h : HasRuns cs rs) (c : Char) : ∃ rs', HasRuns (c :: cs) rs' := by
  cases hc : isBlank c with
  | true => exact ⟨_, h.blank hc⟩
  | false =>
    have hsingle : (∀ d ∈ cs.head?, isBlank d = true) → ∃ rs', HasRuns ([c] ++ cs) rs' :=
      fun hstops => ⟨_, .run (by simp) (by simpa using hc) hstops h⟩
    cases h with
    | nil => exact hsingle (by simp)
    | blank h rest => exact hsingle (by simpa using h)
    | @run run cs rs _ solid stops rest =>
      have hlonger : HasRuns (c :: run ++ cs) ((c :: run) :: rs) :=
        .run (by simp) (by simpa using ⟨hc, solid⟩) stops rest
      exact ⟨_, hlonger⟩

/-- Every line has its runs, and no others. -/
theorem hasRuns_iff : HasRuns cs rs ↔ rs = blankSeparated cs := by
  refine ⟨HasRuns.eq_blankSeparated, ?_⟩
  rintro rfl
  obtain ⟨rs, hrs⟩ : ∃ rs, HasRuns cs rs := by
    induction cs with
    | nil => exact ⟨_, .nil⟩
    | cons c cs ih =>
      obtain ⟨rs, hrs⟩ := ih
      exact hrs.cons c
  exact hrs.eq_blankSeparated ▸ hrs

end HotRegion.Text
