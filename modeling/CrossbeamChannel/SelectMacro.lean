import Mathlib.Data.List.Basic
import Mathlib.Data.Nat.Init
import Mathlib.Tactic.Basic

/-!
# The expansion of `select!` (`src/select_macro.rs`)

The code generation of `crossbeam_channel_internal!`: `@init` turns a `select!` with a single
receive into a plain receive and starts a `Select` for every other list of cases, `@add` adds
the cases to the `Select` one after the other and takes a label for each, and `@complete`
compares the index of the selected operation with the labels. The functions below are these
three sets of macro rules, and what the code they generate does.

A handle is the address of a `Sender` or `Receiver`; the messages and the bodies of the cases
are whatever they are.
-/

namespace CrossbeamChannel.SelectMacro

variable {M B : Type}

/-- A case of `select!`, as the parsing stage leaves it. -/
inductive Case (M B : Type) where
  | recv (r : Nat) (body : B)
  | send (s : Nat) (msg : M) (body : B)

/-- The address of the handle. -/
def Case.ptr : Case M B → Nat
  | .recv r _ => r
  | .send s _ _ => s

/-- The `default` case. -/
inductive Default (B : Type) where
  | absent
  | now (body : B)
  | timeout (body : B)

/-! ## `Select` and `SelectedOperation` (`src/select.rs`) -/

/-- The handles, each with its index. -/
structure Select where
  handles : List (Nat × Nat)

namespace Select

def new : Select := ⟨[]⟩

/-- Adding a handle: its index is the number of handles so far. -/
def push (sel : Select) (ptr : Nat) : Select := ⟨sel.handles ++ [(sel.handles.length, ptr)]⟩

/-- `Select::recv` -/
def recv (sel : Select) (r : Nat) : Select := sel.push r

/-- `Select::send` -/
def send (sel : Select) (s : Nat) : Select := sel.push s

end Select

/-- A selected operation that needs to be completed. -/
structure SelectedOperation where
  index : Nat
  /-- The address of the selected `Sender` or `Receiver`. -/
  ptr : Nat

/-- What becomes of a selected operation. -/
inductive Outcome (M B : Type) where
  /-- The operation was completed with the handle (and the message) of this case, and then the
      body of the case ran. -/
  | ran (case : Case M B)
  /-- "passed a sender that wasn't selected", "passed a receiver that wasn't selected" -/
  | notSelected
  /-- "internal error in crossbeam-channel: invalid case" -/
  | invalidCase

/-- `SelectedOperation::recv` and `SelectedOperation::send` with the handle of the case, and
    then its body. -/
def SelectedOperation.completeWith (oper : SelectedOperation) (case : Case M B) : Outcome M B :=
  if case.ptr = oper.ptr then .ran case else .notSelected

theorem completeWith_ran {oper : SelectedOperation} {case case' : Case M B}
    (h : oper.completeWith case = .ran case') : case = case' := by
  unfold SelectedOperation.completeWith at h
  split at h
  · exact Outcome.ran.inj h
  · cases h

/-! ## The macro rules -/

/-- The `if` chain that `@complete` generates. -/
def complete (oper : SelectedOperation) : List (Nat × Case M B) → Outcome M B
  | [] => .invalidCase
  | (i, case) :: tail => if oper.index = i then oper.completeWith case else complete oper tail

/-- What a `select!` expands to. -/
inductive Expansion (M B : Type) where
  | tryRecv (r : Nat) (body default : B)
  | recv (r : Nat) (body : B)
  | recvTimeout (r : Nat) (body default : B)
  /-- Selection over these handles, and the labelled cases `@complete` gets. -/
  | select (sel : Select) (default : Default B) (cases : List (Nat × Case M B))

/-- `@add`; `none` is a compile error: "too many operations in a `select!` block". -/
def add (sel : Select) (default : Default B) :
    List (Case M B) → List Nat → List (Nat × Case M B) → Option (Expansion M B)
  | [], _, cases => some (.select sel default cases)
  | _ :: _, [], _ => none
  | .recv r body :: tail, i :: labels, cases =>
      add (sel.recv r) default tail labels (cases ++ [(i, .recv r body)])
  | .send s msg body :: tail, i :: labels, cases =>
      add (sel.send s) default tail labels (cases ++ [(i, .send s msg body)])

/-- The labels in the last rule of `@init`. -/
def labels : List Nat :=
  [0, 1, 2, 3, 4, 5, 6, 7, 8, 9, 10, 11, 12, 13, 14, 15, 16, 17, 20, 19, 20, 21, 22, 23, 24, 25,
    26, 27, 28, 29, 30, 31]

/-- `@init` -/
def init : List (Case M B) → Default B → Option (Expansion M B)
  | [.recv r body], .now default => some (.tryRecv r body default)
  | [.recv r body], .absent => some (.recv r body)
  | [.recv r body], .timeout default => some (.recvTimeout r body default)
  | cases, default => add .new default cases labels []

/-! ## What `@add` generates -/

/-- Every handle is added, in order, and every case gets the label at its position. -/
theorem add_eq_some {sel : Select} {default : Default B} {tail : List (Case M B)}
    {labels : List Nat} {cases : List (Nat × Case M B)} {x : Expansion M B}
    (h : add sel default tail labels cases = some x) :
    tail.length ≤ labels.length ∧
      x = .select (tail.foldl (fun sel case => sel.push case.ptr) sel) default
        (cases ++ labels.zip tail) := by
  induction tail generalizing sel labels cases with
  | nil =>
    cases h
    simp
  | cons case tail ih =>
    cases labels with
    | nil => cases case <;> cases h
    | cons i labels =>
      cases case with
      | recv r body | send s msg body =>
        obtain ⟨hlen, rfl⟩ := ih h
        refine ⟨Nat.succ_le_succ hlen, ?_⟩
        simp only [List.zip_cons_cons, List.append_assoc, List.singleton_append, List.foldl_cons]
        rfl

/-- The handle with index `i` is the `i`-th one added. -/
theorem pushed {tail : List (Case M B)} {sel : Select} {i ptr : Nat}
    (hsel : ∀ x ∈ sel.handles, x.1 < sel.handles.length)
    (h : (i, ptr) ∈ (tail.foldl (fun sel case => sel.push case.ptr) sel).handles) :
    (i, ptr) ∈ sel.handles ∨
      ∃ j case, tail[j]? = some case ∧ i = sel.handles.length + j ∧ ptr = case.ptr := by
  induction tail generalizing sel with
  | nil => exact .inl h
  | cons case tail ih =>
    have hlen : (sel.push case.ptr).handles.length = sel.handles.length + 1 := by
      simp [Select.push]
    have hpush : ∀ x ∈ (sel.push case.ptr).handles, x.1 < (sel.push case.ptr).handles.length := by
      intro x hx
      rw [hlen]
      rcases List.mem_append.mp hx with hx | hx
      · exact Nat.lt_succ_of_lt (hsel x hx)
      · obtain rfl := List.mem_singleton.mp hx
        exact Nat.lt_succ_self _
    rcases ih hpush h with hmem | ⟨j, case', hj, hi, hptr⟩
    · rcases List.mem_append.mp hmem with hmem | hmem
      · exact .inl hmem
      · obtain ⟨rfl, rfl⟩ := Prod.mk.inj (List.mem_singleton.mp hmem)
        exact .inr ⟨0, case, rfl, rfl, rfl⟩
    · exact .inr ⟨j + 1, case', hj, by omega, hptr⟩

/-- `@complete` runs the first case whose label is the index. -/
theorem complete_eq (oper : SelectedOperation) (cases : List (Nat × Case M B)) :
    complete oper cases =
      match cases.find? (fun x => oper.index = x.1) with
      | some x => oper.completeWith x.2
      | none => .invalidCase := by
  induction cases with
  | nil => rfl
  | cons x cases ih =>
    obtain ⟨i, case⟩ := x
    simp only [complete, List.find?_cons]
    by_cases h : oper.index = i
    · simp [h]
    · simp [h, ih]

/-- The label at a position, where the labels are what they should be. -/
theorem first_label {i j : Nat} {tail : List (Case M B)} {case : Case M B}
    (hj : tail[j]? = some case) (hlabel : labels[j]? = some i)
    (hfirst : ∀ k < j, labels[k]? ≠ some i) :
    (labels.zip tail).find? (fun x => i = x.1) = some (i, case) := by
  have hjl : j < labels.length := (List.getElem?_eq_some_iff.mp hlabel).1
  have hjt : j < tail.length := (List.getElem?_eq_some_iff.mp hj).1
  refine List.find?_eq_some_iff_getElem.mpr ⟨by simp, j, by rw [List.length_zip]; omega, ?_, ?_⟩
  · rw [List.getElem_zip]
    exact Prod.ext (List.getElem?_eq_some_iff.mp hlabel).2 (List.getElem?_eq_some_iff.mp hj).2
  · intro k hk
    rw [List.getElem_zip]
    have hne := hfirst k hk
    rw [List.getElem?_eq_getElem (by omega)] at hne
    simpa using fun h => hne (congrArg some h.symm)

/-- No case has a label that is not there. -/
theorem no_label {i : Nat} {tail : List (Case M B)} (h : i ∉ labels) :
    (labels.zip tail).find? (fun x => i = x.1) = none := by
  refine List.find?_eq_none.mpr fun x hx => ?_
  simpa using fun heq : i = x.1 => h (heq ▸ (List.of_mem_zip hx).1)

/-- What `@init` generates, where it generates a selection. -/
theorem init_select {cases : List (Case M B)} {default default' : Default B} {sel : Select}
    {chain : List (Nat × Case M B)} (h : init cases default = some (.select sel default' chain)) :
    cases.length ≤ labels.length ∧
      sel = cases.foldl (fun sel case => sel.push case.ptr) .new ∧ chain = labels.zip cases := by
  have hadd : add .new default cases labels [] = some (.select sel default' chain) := by
    unfold init at h
    split at h
    · cases h
    · cases h
    · cases h
    · exact h
  obtain ⟨hlen, heq⟩ := add_eq_some hadd
  cases heq
  exact ⟨hlen, rfl, rfl⟩

/-- The operation was completed with the handle added at its index, and the body of that case
    ran. -/
def RunsSelected (cases : List (Case M B)) (chain : List (Nat × Case M B))
    (oper : SelectedOperation) : Prop :=
  ∃ case, cases[oper.index]? = some case ∧ complete oper chain = .ran case

/-- The labels up to 31 that stand where they should, and nowhere before. -/
theorem labels_right :
    ∀ i < 32, i ≠ 18 → i ≠ 20 → labels[i]? = some i ∧ ∀ k < i, labels[k]? ≠ some i := by
  decide

/-- **Which selections `select!` completes as it should**: all but those of the 19th case,
    and those of the 21st unless it is the same as the 19th, whose label it shares. -/
theorem runs_selected_iff {cases : List (Case M B)} {default default' : Default B} {sel : Select}
    {chain : List (Nat × Case M B)} (h : init cases default = some (.select sel default' chain))
    {oper : SelectedOperation} (hoper : (oper.index, oper.ptr) ∈ sel.handles) :
    RunsSelected cases chain oper ↔
      oper.index ≠ 18 ∧ (oper.index = 20 → cases[18]? = cases[20]?) := by
  obtain ⟨hlen, rfl, rfl⟩ := init_select h
  -- The handle is that of the case at its index.
  obtain ⟨case, hcase, hptr⟩ : ∃ case, cases[oper.index]? = some case ∧ oper.ptr = case.ptr := by
    rcases pushed (by simp [Select.new]) hoper with hnil | ⟨j, case, hj, hi, hptr⟩
    · exact absurd hnil List.not_mem_nil
    · have hi : oper.index = j := by simpa [Select.new] using hi
      exact ⟨case, hi ▸ hj, hptr⟩
  have hlt : oper.index < cases.length := (List.getElem?_eq_some_iff.mp hcase).1
  have hlen : cases.length ≤ 32 := hlen
  unfold RunsSelected
  rw [complete_eq, hcase]
  by_cases h18 : oper.index = 18
  · rw [h18, no_label (by decide)]
    simp
  · by_cases h20 : oper.index = 20
    · -- The first label 20 is at position 18.
      obtain ⟨other, hother⟩ : ∃ other, cases[18]? = some other :=
        ⟨_, List.getElem?_eq_getElem (by omega)⟩
      rw [h20] at hcase
      rw [h20, first_label hother (by decide) (by decide), hother, hcase]
      constructor
      · rintro ⟨case', heq, hran⟩
        refine ⟨by decide, fun _ => ?_⟩
        cases heq
        exact congrArg some (completeWith_ran hran)
      · rintro ⟨-, heq⟩
        cases heq rfl
        exact ⟨case, rfl, if_pos hptr.symm⟩
    · obtain ⟨hlabel, hfirst⟩ := labels_right oper.index (by omega) h18 h20
      rw [first_label hcase hlabel hfirst]
      refine iff_of_true ⟨case, rfl, if_pos hptr.symm⟩ ⟨h18, fun heq => absurd heq h20⟩

/-- A `select!` with `n` receives from different channels. -/
def receives (n : Nat) : List (Case Nat Nat) := (List.range n).map fun i => .recv i i

/-- Twenty receives, and the last of them selected. -/
theorem runs_selected_iff_lastOfTwenty :
    RunsSelected (receives 20) (labels.zip (receives 20)) ⟨19, 19⟩ ↔
      19 ≠ 18 ∧ (19 = 20 → (receives 20)[18]? = (receives 20)[20]?) :=
  have hinit : init (receives 20) .absent =
      some (.select ((receives 20).foldl (fun sel case => sel.push case.ptr) .new) .absent
        (labels.zip (receives 20))) := rfl
  runs_selected_iff hinit (by decide)

/-- Nineteen receives, and the last of them selected: it has no label, and the program runs
    into "invalid case". -/
theorem nineteenth_case_invalid :
    ∃ sel chain, init (receives 19) .absent = some (.select sel .absent chain) ∧
      (18, 18) ∈ sel.handles ∧ complete ⟨18, 18⟩ chain = .invalidCase ∧
      ¬ RunsSelected (receives 19) chain ⟨18, 18⟩ := by
  have hinvalid : complete ⟨18, 18⟩ (labels.zip (receives 19)) = .invalidCase := rfl
  refine ⟨_, labels.zip (receives 19), rfl, by decide, hinvalid, ?_⟩
  rintro ⟨case, -, hran⟩
  rw [hinvalid] at hran
  cases hran

end CrossbeamChannel.SelectMacro
