import Mathlib.Data.List.Infix

/-! Text as a shell hands it from one command to the next: lines, and the words between field separators. Items
    printed one a line are the words of the text, if no separator is in them. -/

namespace Text

/-- The field separators. --/
def isSep (c : Char) : Bool := c = ' ' || c = '\t' || c = '\n'

/-- The words of a text, as an unquoted expansion splits it. --/
def words (text : List Char) : List (List Char) := (text.splitOnP isSep).filter (· ≠ [])

/-- The lines of a text; what follows the last newline counts as one. --/
def lines (text : List Char) : List (List Char) := text.splitOn '\n'

/-- One item a line. --/
def unlines (items : List (List Char)) : List Char := items.flatMap (· ++ ['\n'])

/-- The exit status of `grep`: 0 if the pattern is found in some line, else 1. --/
def grep (pattern text : List Char) : Nat := if ∃ line ∈ lines text, pattern <:+: line then 0 else 1

/-- `awk '/pattern/ {print $k}'`: field `k` of each line in which the pattern is found, on a line of its own. --/
def awk (pattern : List Char) (k : Nat) (text : List Char) : List Char :=
  unlines (((lines text).filter (pattern <:+: ·)).map fun line => (words line).getD (k - 1) [])

/-- The words before a separator and those behind it are split apart from each other. --/
theorem words_append_sep {c : Char} (hc : isSep c = true) (x y : List Char) : words (x ++ c :: y) = words x ++ words y := by
  unfold words
  rw [List.splitOnP_append_cons x y hc, List.filter_append]

theorem words_of_no_sep {x : List Char} (hne : x ≠ []) (h : ∀ c ∈ x, isSep c = false) : words x = [x] := by
  unfold words
  rw [List.splitOnP_eq_singleton h]
  simp [hne]

theorem words_unlines {items : List (List Char)} (h : ∀ x ∈ items, x ≠ [] ∧ ∀ c ∈ x, isSep c = false) :
    words (unlines items) = items := by
  induction items with
  | nil => rfl
  | cons x items ih =>
    obtain ⟨hne, hsep⟩ := h x List.mem_cons_self
    have hx : unlines (x :: items) = x ++ '\n' :: unlines items := by simp [unlines]
    rw [hx, words_append_sep rfl, words_of_no_sep hne hsep, ih fun y hy => h y (List.mem_cons_of_mem x hy)]
    rfl

section Lines
variable {items : List (List Char)} {pattern line : List Char}

theorem lines_unlines (h : ∀ x ∈ items, '\n' ∉ x) : lines (unlines items) = items ++ [[]] := by
  induction items with
  | nil => rfl
  | cons x items ih =>
    have hx : unlines (x :: items) = x ++ '\n' :: unlines items := by simp [unlines]
    have hsep : ∀ c ∈ x, (c == '\n') = false := fun c hc => beq_false_of_ne fun he => h x List.mem_cons_self (he ▸ hc)
    have ih' := ih fun y hy => h y (List.mem_cons_of_mem x hy)
    unfold lines List.splitOn at ih' ⊢
    rw [hx, List.splitOnP_append_cons _ _ (by simp), List.splitOnP_eq_singleton hsep, ih']
    rfl

/-- On lines printed one by one, `awk` picks the fields of those that have the pattern. --/
theorem awk_unlines (h : ∀ x ∈ items, '\n' ∉ x) (hp : pattern ≠ []) (k : Nat) :
    awk pattern k (unlines items) =
      unlines ((items.filter (pattern <:+: ·)).map fun line => (words line).getD (k - 1) []) := by
  have hnil : ¬pattern <:+: [] := fun hi => hp (List.infix_nil.mp hi)
  unfold awk
  rw [lines_unlines h, List.filter_append, List.filter_singleton, decide_eq_false hnil, cond_false, List.append_nil]

/-- The words of a line whose first word is followed by a blank. --/
theorem words_cons {x : List Char} (hne : x ≠ []) (h : ∀ c ∈ x, isSep c = false) (line : List Char) :
    words (x ++ ' ' :: line) = x :: words line := by
  rw [words_append_sep rfl, words_of_no_sep hne h]
  rfl

end Lines

section Grep
variable {pattern text : List Char}

theorem grep_eq_one_iff : grep pattern text = 1 ↔ ¬∃ line ∈ lines text, pattern <:+: line := by
  unfold grep
  split <;> simp_all

theorem lines_line (h : '\n' ∉ text) : lines (text ++ ['\n']) = [text, []] := by
  unfold lines List.splitOn
  rw [List.splitOnP_append_cons _ _ (by simp), List.splitOnP_eq_singleton fun x hx => ?_]
  · rfl
  · exact beq_false_of_ne fun he => h (he ▸ hx)

/-- In a text of one line the pattern is found if it lies in the line. --/
theorem exists_line_iff (h : '\n' ∉ text) (hp : pattern ≠ []) :
    (∃ line ∈ lines (text ++ ['\n']), pattern <:+: line) ↔ pattern <:+: text := by
  rw [lines_line h]
  simp [hp]

end Grep

end Text
