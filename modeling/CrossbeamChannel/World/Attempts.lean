import CrossbeamChannel.World.Disconnect

/-!
# What an attempt finds

`start_recv` looks at the tail, at the flag and at the tail again, and other threads go on in
between. What it reports was true at one instant: a refusal, that the channel was empty and
connected. So an attempt made after a deadline has passed says how things stood after it.

`Found` keeps, for a thread in the middle of `start_recv`, an instant within a run rather than a fact about
the present state; the invariants of the flavors give the instant, at the load of `tail`.
-/

namespace CrossbeamChannel

variable {Tid T : Type} [DecidableEq Tid]

namespace World

variable {kind : Nat → Kind T} {w w' : World Tid T} {t : Tid} {c : Nat}

/-- A receive on the channel would have to wait: it is empty and connected. -/
def Unready (w : World Tid T) (c : Nat) : Prop :=
  (w.shared.buffer c).view.sends = (w.shared.buffer c).view.recvs ∧
    (w.shared.buffer c).view.isDisconnected = false

/-- The flag of a buffered channel is never taken back. -/
theorem flag_step {l : Label Tid T} (hr : (system kind).Reachable w) (hs : w.step kind l = some w')
    (hv : (w.shared.buffer c).view.isDisconnected = true) :
    (w'.shared.buffer c).view.isDisconnected = true := by
  rcases step_cases hs with ⟨u, act, th, count, ht, ha⟩ | ⟨c', d', -, rfl⟩ | ⟨now, -, rfl⟩
  · rw [ha.shared]
    cases ht with
    | next hn => exact flag_kept (sound_of_reachable hr) hn hv
    | _ => exact hv
  · exact hv
  · exact hv

/-- A step of another thread leaves a thread where it is in every channel. -/
theorem step_others {u : Tid} {act : Act Tid T} {th : Thread Tid T} {count : Nat → Side → Nat}
    (hr : (system kind).Reachable w) (ht : Turn kind w u act th count)
    (ha : After w w' u act th count) (hu : t ≠ u) (c : Nat) :
    w'.thread t = w.thread t ∧ (w'.shared.buffer c).phase t = (w.shared.buffer c).phase t := by
  refine ⟨ha.others hu, ?_⟩
  rw [ha.shared]
  exact (ht.kept (sound_of_reachable hr) (typed_of_reachable hr u)).others c t hu

section

variable {x : (system kind : Lib.System (World Tid T) _).Exec} {i j k m d : Nat}

/-- At some instant from `i` to `j` the time was `d` or later, and `P` held. -/
def During (x : (system kind : Lib.System (World Tid T) _).Exec) (i j d : Nat)
    (P : World Tid T → Prop) : Prop :=
  ∃ k, i ≤ k ∧ k ≤ j ∧ d ≤ (x.state k).shared.clock ∧ P (x.state k)

theorem During.mono {P Q : World Tid T → Prop} (h : During x i j d P) (hk : k ≤ i) (hj : j ≤ m)
    (hPQ : ∀ w, P w → Q w) : During x k m d Q := by
  obtain ⟨n, hin, hnj, hclock, hP⟩ := h
  exact ⟨n, by omega, by omega, hclock, hPQ _ hP⟩

/-- What a thread that has come this far in `start_recv` has found, between `i` and `j`. -/
def Found (x : (system kind : Lib.System (World Tid T) _).Exec) (i j c d : Nat) :
    Phase T → Prop
  | .late => During x i j d fun w => (w.shared.buffer c).view.sends = (w.shared.buffer c).view.recvs
  | .refused .recv => During x i j d fun w => w.Unready c
  | _ => True

theorem Found.mono {p : Phase T} (h : Found x i j c d p) (hj : j ≤ m) : Found x i m c d p := by
  unfold Found at h ⊢
  split at h
  · exact During.mono h (Nat.le_refl i) hj fun _ hP => hP
  · exact During.mono h (Nat.le_refl i) hj fun _ hP => hP
  · trivial

/-- A channel that is connected now was connected before. -/
theorem connected_before (hj : j ≤ x.len) (hkj : k ≤ j)
    (h : ((x.state j).shared.buffer c).view.isDisconnected = false) :
    ((x.state k).shared.buffer c).view.isDisconnected = false := by
  by_contra hset
  have hkept := x.persists (Q := fun w => (w.shared.buffer c).view.isDisconnected = true)
    (fun _ _ _ hr hs hv => flag_step hr hs hv) hkj hj (Bool.eq_true_of_not_eq_false hset)
  rw [h] at hkept
  cases hkept

/-- One step inside `start_recv`. -/
theorem Found.run {cap : Option Nat} {k : BufferCall T} {v' : View} {p' : Phase T}
    (hj : j ≤ x.len) (hij : i ≤ j) (hd : d ≤ (x.state j).shared.clock)
    (h : Found x i j c d (((x.state j).shared.buffer c).phase t))
    (hdrive : Phase.Drive cap k ((x.state j).shared.buffer c).view
      (((x.state j).shared.buffer c).phase t) v' p' none) : Found x i j c d p' := by
  generalize hp : ((x.state j).shared.buffer c).phase t = p at h hdrive
  generalize hv : ((x.state j).shared.buffer c).view = v at hdrive
  cases hdrive with
  | enter he =>
    unfold Phase.enter at he
    split at he <;> cases he <;> trivial
  | run hs =>
    cases hs with
    | stay => exact h
    | take hp' => rcases hp' with rfl | rfl <;> trivial
    | empty hempty => exact ⟨j, hij, Nat.le_refl j, hd, by dsimp only; rw [hv]; exact hempty⟩
    | refuse hflag =>
      obtain ⟨n, hin, hnj, hclock, hempty⟩ := h
      exact ⟨n, hin, hnj, hclock, hempty, connected_before hj hnj (by rw [hv]; exact hflag)⟩
    | _ => trivial

/-- **One step of an attempt to receive**: it goes on, or it returns a token, or it is refused,
    and then the channel was not ready. -/
theorem attempt_step (hj : j < x.len) (hij : i ≤ j)
    (hd : d ≤ (x.state j).shared.clock)
    (hcall : ((x.state j).thread t).frame.call.onBuffer kind ((x.state j).thread t).prog =
      some (c, .start .recv))
    (hops : ((x.state (j + 1)).thread t).ops = ((x.state j).thread t).ops)
    (h : Found x i j c d (((x.state j).shared.buffer c).phase t)) :
    (((x.state (j + 1)).thread t).frame = ((x.state j).thread t).frame ∧
      ((x.state (j + 1)).thread t).frame.call.onBuffer kind ((x.state (j + 1)).thread t).prog =
        some (c, .start .recv) ∧
      Found x i (j + 1) c d (((x.state (j + 1)).shared.buffer c).phase t)) ∨
    ∃ order r, ((x.state j).thread t).frame.resume kind t order r =
        some ((x.state (j + 1)).thread t).frame ∧
      ((∃ tk, r = .token tk) ∨ (r = .failed ∧ During x i j d fun w => w.Unready c)) := by
  obtain ⟨l, hl⟩ := x.next j hj
  have hr := x.reachable (Nat.le_of_lt hj)
  rcases step_cases hl with ⟨u, act, th, count, ht, ha⟩ | ⟨c', d', -, hw⟩ | ⟨now, -, hw⟩
  · by_cases hu : t = u
    · subst hu
      rw [ha.ops] at hops
      rw [ha.frame, ha.prog]
      cases ht with
      | next hn =>
        obtain ⟨spurious, rep, he, hmore, hret⟩ := hn.exec
        obtain ⟨a, hdr⟩ := Shared.exec_onBuffer hcall he
        obtain ⟨spurious', b, hdrive, rfl⟩ := hdr.drive
        have hdriven := (Buffer.drive_driven ((sound_of_reachable hr).buffer c) hdrive).drive
        cases a with
        | none =>
          obtain ⟨pr, hrep, hpr⟩ := hdr.goes rfl
          obtain ⟨hf, hprog⟩ := hmore pr hrep
          refine .inl ⟨hf, by rw [hf, hprog]; exact hpr, ?_⟩
          rw [ha.shared]
          simp only [Shared.apply, Function.update_self]
          exact (h.run (Nat.le_of_lt hj) hij hd hdriven).mono (Nat.le_succ j)
        | some a =>
          have hfits := (sound_of_reachable hr).fits hcall
          have hanswer := hdriven.answered
          have hrep := hdr.answers a rfl
          -- `start_recv` returns: with a token, or with what it has found on the way.
          generalize ((x.state j).shared.buffer c).phase t = p at h hfits hanswer
          cases p with
          | granted _ | null _ =>
            cases hanswer
            obtain ⟨-, order, hres⟩ := hret _ hrep
            exact .inr ⟨order, _, hres, .inl ⟨_, rfl⟩⟩
          | refused d' =>
            obtain rfl : d' = .recv := hfits
            cases hanswer
            obtain ⟨-, order, hres⟩ := hret _ hrep
            exact .inr ⟨order, _, hres, .inr ⟨rfl, h⟩⟩
          | _ => cases hanswer
      | start _ _ => exact absurd hops (Nat.succ_ne_self _)
      | complete hf _ =>
        rw [hf] at hcall
        cases hcall
      | drop _ _ _ => exact absurd hops (Nat.succ_ne_self _)
    -- Another thread's turn leaves behind what has been found.
    · obtain ⟨hthread, hphase⟩ := step_others hr ht ha hu c
      rw [hthread, hphase]
      exact .inl ⟨rfl, hcall, h.mono (Nat.le_succ j)⟩
  · rw [hw]
    exact .inl ⟨rfl, hcall, h.mono (Nat.le_succ j)⟩
  · rw [hw]
    exact .inl ⟨rfl, hcall, h.mono (Nat.le_succ j)⟩

end

end World

end CrossbeamChannel
