import CrossbeamChannel.World.Phases

/-!
# The guards of the list flavor

The token of a list channel also carries an epoch guard, which `write` and `read` take out and
unwrap. The machine leaves it out. Here every thread has a token beside its operation: one for
the whole operation, also where `run_select` works on several list channels with it.

`start_send` and `start_recv` of the list flavor pin an epoch and store the guard in the token in the
case of success (`list.rs` 154-228 and 250-344); `write` and `read` do
`token.list.guard.take().unwrap()`, if the block is not null. A token that is refilled by another handle
must not lose a guard that is still needed, nor may a guard be taken twice.
-/

namespace CrossbeamChannel

variable {Tid T : Type}

/-- `ListToken`: whether the slot is not null, and whether there is a guard. -/
structure GuardedToken where
  slot : Bool
  guard : Bool
  deriving DecidableEq

namespace GuardedToken

/-- `Token::default()` -/
def default : GuardedToken := ⟨false, false⟩

/-- What `write` and `read` do with their token: nothing where the slot is null, and otherwise
    `guard.take().unwrap()`. -/
def takeGuard (tk : GuardedToken) : Option GuardedToken :=
  if tk.slot then
    if tk.guard then some { tk with guard := false } else none
  else some tk

/-- The token of a thread that has come from one phase to the next: `start_send` and
    `start_recv` fill it, `write` and `read` take the guard out. -/
def after (tk : GuardedToken) : Phase T → Phase T → GuardedToken
  | .granted _, .completing _ | .null _, .unsent _ | .null _, .unread => tk.takeGuard.getD tk
  | _, .granted _ => ⟨true, true⟩
  | _, .null _ => { tk with slot := false }
  | _, _ => tk

/-- A token that is ready to be completed with. -/
def Ready (tk : GuardedToken) : Phase T → Prop
  | .granted _ => tk = ⟨true, true⟩
  | .null _ => tk.slot = false
  | _ => True

variable {tk : GuardedToken} {p : Phase T}

theorem ready_after (tk : GuardedToken) (p p' : Phase T) : (tk.after p p').Ready p' := by
  cases p' with
  | granted d | null d => cases p <;> rfl
  | _ => trivial

theorem Ready.takeGuard (h : tk.Ready p) {d : Side} (hp : p = .granted d ∨ p = .null d) :
    tk.takeGuard ≠ none := by
  rcases hp with rfl | rfl
  · rw [show tk = ⟨true, true⟩ from h]
    simp [GuardedToken.takeGuard]
  · rw [GuardedToken.takeGuard, show tk.slot = false from h]
    simp

end GuardedToken

namespace World

variable [DecidableEq Tid]

/-- The token of thread `t` after its next atomic step. -/
def tokenAfter (kind : Nat → Kind T) (w : World Tid T) (t : Tid) (spurious : Bool)
    (tk : GuardedToken) : GuardedToken :=
  let th := w.thread t
  match w.shared.exec t kind th.frame.call th.prog spurious with
  | some (.drive c _ b _, _) =>
      match kind c with
      | .list => tk.after ((w.shared.buffer c).phase t) (b.phase t)
      | _ => tk
  | some (_, .ret (.nat now)) =>
      match th.frame with
      -- `run_select` calls itself.
      | .select _ _ (.timeCheck when) => if when ≤ now then .default else tk
      | _ => tk
  | _ => tk

/-- The tokens after this step. -/
def tokensAfter (kind : Nat → Kind T) (w : World Tid T) (tok : Tid → GuardedToken) :
    Label Tid T → Tid → GuardedToken
  | .start t _ => Function.update tok t .default
  | .run t spurious _ => Function.update tok t (w.tokenAfter kind t spurious (tok t))
  | _ => tok

/-- The machine, with a token beside every thread. -/
def tokened (kind : Nat → Kind T) :
    Lib.System (World Tid T × (Tid → GuardedToken)) (Label Tid T) where
  init x := x = (World.init kind, fun _ => .default)
  step x l x' := x.1.step kind l = some x'.1 ∧ x'.2 = x.1.tokensAfter kind x.2 l

/-- One step of it. -/
def tokenedStep (kind : Nat → Kind T) (x : World Tid T × (Tid → GuardedToken)) (l : Label Tid T) :
    Option (World Tid T × (Tid → GuardedToken)) :=
  (x.1.step kind l).map fun w => (w, x.1.tokensAfter kind x.2 l)

variable {kind : Nat → Kind T} {w w' : World Tid T} {x x' : World Tid T × (Tid → GuardedToken)} {t : Tid}

theorem tokened_step {l : Label Tid T} (h : tokenedStep kind x l = some x') :
    (tokened kind).step x l x' := by
  obtain ⟨w, hw, rfl⟩ := Option.map_eq_some_iff.mp h
  exact ⟨hw, rfl⟩

/-- The tokens change nothing about the machine. -/
theorem reachable_of_tokened (h : (tokened kind).Reachable x) : (system kind).Reachable x.1 := by
  induction h with
  | init h => exact .init (congrArg Prod.fst h)
  | step _ hs ih => exact .step ih hs.1

/-- Where a thread has come to in a list channel, its token is ready. -/
def TokensReady (kind : Nat → Kind T) (x : World Tid T × (Tid → GuardedToken)) : Prop :=
  ∀ t c, kind c = .list → (x.2 t).Ready ((x.1.shared.buffer c).phase t)

omit [DecidableEq Tid] in
/-- A thread outside every call has come to nothing. -/
theorem idle_of_ended (hs : Sound kind w) (hover : (w.thread t).frame.ended = true) (c : Nat) :
    (w.shared.buffer c).phase t = .idle := by
  have hphase := hs.phase t c
  cases hf : (w.thread t).frame <;> rw [hf] at hover hphase <;> first | exact hphase | cases hover

theorem ready_run (hs : Sound kind w) {spurious : Bool} {order : List Handle}
    (hrun : w.run kind t spurious order = some w') (tk : GuardedToken) {c : Nat} (hc : kind c = .list) :
    (w.tokenAfter kind t spurious tk).Ready ((w'.shared.buffer c).phase t) := by
  obtain ⟨act, rep, he, hshared⟩ : ∃ act rep,
      w.shared.exec t kind (w.thread t).frame.call (w.thread t).prog spurious = some (act, rep) ∧
        w'.shared = w.shared.apply t act := by
    unfold run at hrun
    dsimp only at hrun
    split at hrun
    · cases hrun
    · rename_i act pr he
      cases hrun
      exact ⟨act, _, he, rfl⟩
    · rename_i act r he
      obtain ⟨f, -, rfl⟩ := Option.map_eq_some_iff.mp hrun
      exact ⟨act, _, he, put_shared _ _ _⟩
  have hmatch := fun c => (Frame.matches_iff
    (fun x tk hx => by rw [hx] at he; cases he)).mp (hs.phase t c)
  rw [hshared]
  cases hon : (w.thread t).frame.call.onBuffer kind (w.thread t).prog with
  | none =>
    have hidle := hmatch c
    rw [hon] at hidle
    rw [Shared.exec_offBuffer hon he, hidle]
    trivial
  | some ck =>
    obtain ⟨c', k⟩ := ck
    obtain ⟨a, hd⟩ := Shared.exec_onBuffer hon he
    obtain ⟨spurious', b, -, rfl⟩ := hd.drive
    by_cases hcc : c' = c
    · subst hcc
      rw [tokenAfter, he]
      simp only [hc, Shared.apply, Function.update_self]
      exact GuardedToken.ready_after _ _ _
    · have hidle := hmatch c
      rw [hon] at hidle
      simp only [if_neg hcc] at hidle
      simp only [Shared.apply, Function.update_of_ne (Ne.symm hcc), hidle]
      trivial

theorem tokens_ready (h : (tokened kind).Reachable x) : TokensReady kind x := by
  refine h.invariant (P := TokensReady kind) ?_ ?_
  · rintro _ rfl t c -
    rw [show ((World.init kind : World Tid T).shared.buffer c).phase t = .idle from
      (buffer_init_ok (kind c)).2 t]
    trivial
  · rintro ⟨w, tok⟩ l ⟨w', tok'⟩ hr ih ⟨hstep, htok⟩ u c hc
    have hreach := reachable_of_tokened hr
    have hs : Sound kind w := sound_of_reachable hreach
    dsimp only at hstep htok ⊢
    subst htok
    -- Another thread's token and phase stay as they are.
    have others : ∀ {t}, u ≠ t → (w'.shared.buffer c).phase u = (w.shared.buffer c).phase u →
        ∀ tk, (Function.update tok t tk u).Ready ((w'.shared.buffer c).phase u) := by
      intro t hu hphase tk
      rw [Function.update_of_ne hu, hphase]
      exact ih u c hc
    cases l with
    | run t spurious order =>
      obtain ⟨act, f, pr, hn, ha⟩ := run_turn hstep
      by_cases hu : u = t
      · subst hu
        simp only [tokensAfter, Function.update_self]
        exact ready_run hs hstep _ hc
      · refine others hu ?_ _
        rw [ha.shared]
        exact (Turn.kept (.next hn) hs (typed_of_reachable hreach t)).others c u hu
    | start t op =>
      obtain ⟨hcond, heq⟩ := Option.ite_none_right_eq_some.mp hstep
      obtain rfl := Option.some.inj heq
      have hsame := (begin_after w hcond.1 (op.frame kind) op.uses op.job).shared
      by_cases hu : u = t
      · subst hu
        rw [hsame]
        change GuardedToken.Ready _ ((w.shared.buffer c).phase u)
        rw [idle_of_ended hs hcond.1 c]
        trivial
      · exact others hu (by rw [hsame]; rfl) _
    | complete _ _ | clone _ _ | drop _ _ _ | advance _ =>
      have hsame : w'.shared.buffer = w.shared.buffer := by
        rcases other_cases hstep (fun _ _ _ h => by cases h) with
          ⟨t, act, th, count, ht, ha, hcall, -⟩ | ⟨c, d, -, rfl, -⟩ | ⟨now, -, rfl, -⟩
        · rw [ha.shared]
          cases ht with
          | next hn =>
            obtain ⟨spurious, rep, he, -⟩ := hn.exec
            rw [hcall] at he
            cases he
          | start _ _ | complete _ _ | drop _ _ _ => rfl
        · rfl
        · rfl
      rw [hsame]
      exact ih u c hc

end World

end CrossbeamChannel
