import Mathlib.Data.List.DropRight
import Calculator.Worksheet.Basic
/-!
Runs of the calculating paper. Whatever the user and the view do, in whatever order, the
precision stays in `[1, maxPrecision]` and the sheet holds at most `maxLines` lines
(`State.Bounded`). The sheet is a window on the results shown since it was last emptied: the
last `maxLines` of the lines that `setResult` added, oldest first, each carrying the precision in
force when it was added (`lines_run`). Reusing a line appends its result, in parentheses, to the
entry when the line exists, and changes nothing else but the focus (`step_reuse`).
-/

namespace Calculator.Worksheet

namespace Action

def emptiesSheet : Action → Bool
  | .resetAll | .clearSheet => true
  | _ => false

def line? (s : State) : Action → Option Line
  | .setResult expression result => some ⟨expression, result, s.precision⟩
  | _ => none

end Action

namespace State

def addedLines (steps : List (State × Action)) : List Line :=
  (steps.rtakeWhile fun st => !st.2.emptiesSheet).filterMap fun st => st.2.line? st.1

theorem addedLines_concat (steps : List (State × Action)) (s : State) (a : Action) :
    addedLines (steps ++ [(s, a)]) =
      if a.emptiesSheet then [] else addedLines steps ++ (a.line? s).toList := by
  unfold addedLines
  rw [List.rtakeWhile_concat]
  cases a.emptiesSheet with
  | true => rfl
  | false =>
    simp only [Bool.not_false, if_true, List.filterMap_append, List.filterMap_cons,
      List.filterMap_nil, Bool.false_eq_true, if_false]
    cases a.line? s <;> rfl

theorem trace_zip_concat (s : State) (actions : List Action) (a : Action) :
    (s.trace (actions ++ [a])).zip (actions ++ [a]) =
      (s.trace actions).zip actions ++ [(actions.foldl step s, a)] := by
  induction actions generalizing s with
  | nil => rfl
  | cons b rest ih =>
    simp only [List.cons_append, trace, List.zip_cons_cons, ih, List.foldl_cons]

/-! ### The bounds -/

structure Bounded (s : State) : Prop where
  precision_pos : 1 ≤ s.precision
  precision_le : s.precision ≤ maxPrecision
  lines_le : s.lines.length ≤ maxLines

theorem Bounded.of_eq {s t : State} (h : s.Bounded) (hp : t.precision = s.precision)
    (hl : t.lines = s.lines) : t.Bounded :=
  ⟨hp ▸ h.precision_pos, hp ▸ h.precision_le, hl ▸ h.lines_le⟩

theorem initial_bounded : initial.Bounded := ⟨by decide, by decide, by decide⟩

theorem addLine_eq_rtake (lines : List Line) (line : Line) :
    addLine lines line = (lines ++ [line]).rtake maxLines := rfl

theorem length_addLine_le (lines : List Line) (line : Line) :
    (addLine lines line).length ≤ maxLines := by
  simp only [addLine, List.length_drop]
  omega

theorem clampPrecision_mem (n : Nat) : 1 ≤ clampPrecision n ∧ clampPrecision n ≤ maxPrecision := by
  simp only [clampPrecision, maxPrecision]
  omega

theorem Bounded.step {s : State} (h : s.Bounded) (a : Action) : (s.step a).Bounded := by
  cases a with
  | resetAll => exact initial_bounded
  | setResult expression result =>
    exact ⟨h.precision_pos, h.precision_le, length_addLine_le _ _⟩
  | setPrecision n => exact ⟨(clampPrecision_mem n).1, (clampPrecision_mem n).2, h.lines_le⟩
  | clearSheet => exact ⟨h.precision_pos, h.precision_le, Nat.zero_le _⟩
  | reuse index =>
    rw [State.step]
    split
    · exact h.of_eq rfl rfl
    · exact h.of_eq rfl rfl
  | completeErase before =>
    rw [State.step]
    split_ifs
    · exact h.of_eq rfl rfl
    · exact h
  | clearEntry | clearResults | setError _ | backspace | editEntry _ | showTokens _
  | setFocus _ => exact h.of_eq (by rw [State.step]) (by rw [State.step])

theorem Bounded.trace {s : State} (h : s.Bounded) (actions : List Action) :
    ∀ t ∈ s.trace actions, t.Bounded := by
  induction actions generalizing s with
  | nil =>
    intro t ht
    rw [State.trace, List.mem_singleton] at ht
    exact ht ▸ h
  | cons a rest ih =>
    intro t ht
    rw [State.trace, List.mem_cons] at ht
    rcases ht with rfl | ht
    · exact h
    · exact ih (h.step a) t ht

/-! ### The sheet as a window on the added lines -/

theorem rtake_concat_rtake {α : Type} (l : List α) (x : α) (n : Nat) :
    (l.rtake n ++ [x]).rtake n = (l ++ [x]).rtake n := by
  cases n with
  | zero => simp only [List.rtake_zero]
  | succ k =>
    rw [List.rtake_concat_succ, List.rtake_concat_succ]
    simp only [List.rtake_eq_reverse_take_reverse, List.reverse_reverse, List.take_take,
      Nat.min_eq_left (Nat.le_succ k)]

theorem lines_step (s : State) (a : Action) :
    (s.step a).lines =
      if a.emptiesSheet then []
      else
        match a.line? s with
        | some line => addLine s.lines line
        | none => s.lines := by
  cases a with
  | reuse index =>
    rw [State.step]
    split <;> rfl
  | completeErase before =>
    show (if dropOpenParen before = some s.entry then _ else s).lines = s.lines
    split_ifs <;> rfl
  | _ =>
    rw [State.step]
    rfl

theorem lines_step_window {s : State} {steps : List (State × Action)}
    (h : s.lines = (addedLines steps).rtake maxLines) (a : Action) :
    (s.step a).lines = (addedLines (steps ++ [(s, a)])).rtake maxLines := by
  rw [lines_step, addedLines_concat]
  cases a.emptiesSheet with
  | true => rfl
  | false =>
    simp only [Bool.false_eq_true, if_false]
    cases a.line? s with
    | none => rw [Option.toList_none, List.append_nil, h]
    | some line =>
      show addLine s.lines line = _
      rw [Option.toList_some, h, addLine_eq_rtake, rtake_concat_rtake]

theorem lines_run (actions : List Action) :
    (actions.foldl step initial).lines =
      (addedLines ((initial.trace actions).zip actions)).rtake maxLines := by
  induction actions using List.reverseRecOn with
  | nil => rfl
  | append_singleton actions a ih =>
    rw [List.foldl_append, trace_zip_concat, List.foldl_cons, List.foldl_nil]
    exact lines_step_window ih a

theorem step_reuse (s : State) (i : Nat) :
    s.step (.reuse i) =
      { s with
        entry := if h : i < s.lines.length then s.entry ++ "(" ++ s.lines[i].result ++ ")"
          else s.entry,
        focusEntry := true } := by
  rw [State.step]
  split
  next line hline =>
    obtain ⟨hi, rfl⟩ := List.getElem?_eq_some_iff.mp hline
    rw [dif_pos hi]
  next hline =>
    rw [dif_neg (by simpa using hline)]

/-- Over any run of actions from the fresh state: every state has its precision in
`[1, maxPrecision]` and at most `maxLines` lines; the sheet holds the last `maxLines` lines added
by `setResult` since the last `resetAll` or `clearSheet`, in order, each with the precision of the
state it was added in; and reusing line `i` changes the entry only when the line exists, by
appending its result in parentheses. -/
theorem run_keeps_sheet_window (actions : List Action) :
    (∀ t ∈ initial.trace actions,
      1 ≤ t.precision ∧ t.precision ≤ maxPrecision ∧ t.lines.length ≤ maxLines) ∧
    (actions.foldl step initial).lines =
      (addedLines ((initial.trace actions).zip actions)).rtake maxLines ∧
    ∀ (s : State) (i : Nat), s.step (.reuse i) =
      { s with
        entry := if h : i < s.lines.length then s.entry ++ "(" ++ s.lines[i].result ++ ")"
          else s.entry,
        focusEntry := true } := by
  refine ⟨fun t ht => ?_, lines_run actions, step_reuse⟩
  have hb := initial_bounded.trace actions t ht
  exact ⟨hb.precision_pos, hb.precision_le, hb.lines_le⟩

/-- A run that asks for precision zero, shows a result and reuses it: the state after the first
action is one of the run's, within the bounds, and the sheet is the window of its added lines. -/
theorem run_keeps_sheet_window_clamped :
    initial.step (.setPrecision 0) ∈
        initial.trace [.setPrecision 0, .setResult "1/4" "0.25", .reuse 0] ∧
      1 ≤ (initial.step (.setPrecision 0)).precision ∧
      ([.setPrecision 0, .setResult "1/4" "0.25", .reuse 0].foldl step initial).lines =
        (addedLines ((initial.trace [.setPrecision 0, .setResult "1/4" "0.25", .reuse 0]).zip
          [.setPrecision 0, .setResult "1/4" "0.25", .reuse 0])).rtake maxLines := by
  have hmem : initial.step (.setPrecision 0) ∈
      initial.trace [.setPrecision 0, .setResult "1/4" "0.25", .reuse 0] := by decide
  obtain ⟨hbounds, hlines, -⟩ :=
    run_keeps_sheet_window [.setPrecision 0, .setResult "1/4" "0.25", .reuse 0]
  exact ⟨hmem, (hbounds _ hmem).1, hlines⟩

end State

end Calculator.Worksheet
