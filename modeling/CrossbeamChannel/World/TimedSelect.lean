import CrossbeamChannel.World.Attempts

/-!
# The two ways of a `select!` with one receive and a timeout

`select!` with one `recv` case and `default(timeout)` becomes a call of `recv_timeout`; all
other forms with a timeout become a `select_timeout`. The one does what the other does, but
for one thing: `run_select` tries once more when its time is up, and `recv` does not.

See `select_macro.rs` 637-650 for the special case and `select.rs` 350-352 for the last round. In `recv`
the check of the deadline follows `Context::with` immediately (`array.rs` 470-474, `list.rs` 441-445), also
when the thread has been woken for a message.
-/

namespace CrossbeamChannel

variable {Tid T : Type}

/-- What the optimised form begins: `recv_timeout`. -/
def Op.recvTimeout (c deadline : Nat) : Op T := .plain ⟨c, none⟩ (.blocking (some deadline))

/-- What the general form begins: `select_timeout` with one handle. -/
def Op.selectTimeout (c ptr deadline : Nat) : Op T :=
  .select [⟨c, .recv, 0, ptr⟩] (.at deadline)

/-- The outcomes of an operation that was fired. -/
def Outcome.Fired : Outcome T → Prop
  | .ok _ | .okInstant _ | .disconnected _ => True
  | _ => False

namespace Frame

variable {kind : Nat → Kind T} {f g : Frame Tid T} {order : List Handle} {r : Ret Tid T}

/-- The operation was fired and is on its way to an outcome of `Fired`. -/
def Firing : Frame Tid T → Prop
  | .finish _ (.wakeOne out) | .finish _ (.setReady _ out) => out.Fired
  | .finish _ _ | .panicked => True
  | .done out => out.Fired
  | _ => False

theorem finishWith_firing (job : Job T) (tk : Token) :
    (finishWith kind job tk : Frame Tid T).Firing := by
  unfold finishWith
  repeat' split
  all_goals trivial

theorem completed_firing {job : Job T} {a : Answer T} (h : completed kind job a = some f) :
    f.Firing := by
  unfold completed at h
  repeat' split at h
  all_goals cases h
  all_goals trivial

theorem finishResume_firing {job : Job T} {st : FinishStage T}
    (hf : (Frame.finish job st : Frame Tid T).Firing) (h : finishResume kind job st r = some g) :
    g.Firing := by
  unfold finishResume at h
  split at h
  · exact completed_firing h
  all_goals cases h
  all_goals exact hf

/-- `run_select` with one handle and a timeout, before the timeout is reached. -/
def Looping (h : Handle) (d : Nat) : Frame Tid T → Prop
  | .select handles (.at when) st =>
      handles = [h] ∧ when = d ∧
        match st with
        | .timeCheck when => when = d
        | .shuffleNow | .snapshot _ | .probe _ _ | .recheck _ _ _ | .sleep _ => False
        | _ => True
  | _ => False

theorem loopStart_looping {h : Handle} {d : Nat} :
    (loopStart [h] (.at d) : Frame Tid T).Looping h d :=
  ⟨rfl, rfl, trivial⟩

theorem nextHandle_last {h : Handle} {timeout : Timeout} {i : Nat} {n : Nat → SelectStage Tid} :
    nextHandle [h] timeout i n f = f :=
  if_neg (by simp)

theorem choose_one {h : Handle} {i : Nat} {tk : Token} (hc : choose [h] i tk = some g) :
    g = .chosen h tk := by
  obtain ⟨x, hx, rfl⟩ := Option.map_eq_some_iff.mp hc
  rw [List.mem_singleton.mp (List.mem_of_getElem? hx)]

theorem retryResume_looping {h : Handle} {d i : Nat} {st : RetryStage Tid}
    (hr : retryResume [h] (.at d) i st r = some g) :
    g.Looping h d ∨ (∃ tk, g = .chosen h tk) ∨ g = .panicked := by
  unfold retryResume at hr
  split at hr
  · exact .inr (.inl ⟨_, choose_one hr⟩)
  · exact .inr (.inl ⟨_, choose_one hr⟩)
  · rw [nextHandle_last] at hr
    cases hr
    exact .inl ⟨rfl, rfl, trivial⟩
  · cases hr
    exact .inl ⟨rfl, rfl, trivial⟩
  · cases hr
    exact .inr (.inr rfl)
  · cases hr
    exact .inl ⟨rfl, rfl, trivial⟩
  · cases hr
    exact .inl ⟨rfl, rfl, trivial⟩
  · cases hr
    exact .inr (.inr rfl)
  · cases hr
    exact .inl ⟨rfl, rfl, trivial⟩
  · exact .inr (.inl ⟨_, choose_one hr⟩)
  · rw [nextHandle_last] at hr
    cases hr
    exact .inl ⟨rfl, rfl, trivial⟩
  · cases hr

variable [DecidableEq Tid] {t : Tid}

theorem Firing.resume (hf : f.Firing) (h : f.resume kind t order r = some g) : g.Firing := by
  cases f with
  | finish job st => exact finishResume_firing hf h
  | done out | panicked => cases h
  | _ => exact hf.elim

omit [DecidableEq Tid] in
/-- Where `recv_timeout` goes from its own body: on, to the end of a fired operation, or to a
    timeout. -/
theorem plainResume_cases {job : Job T} {d : Nat} {st : PlainStage}
    (h : plainResume kind job (.blocking (some d)) st r = some g) :
    (∃ st', g = .plain job (.blocking (some d)) st') ∨ g.Firing ∨
      ∃ woken now, st = .deadline woken ∧ r = .nat now ∧ d ≤ now ∧ g = .done (.timeout job.msg) := by
  have waited : ∀ woken, ∃ st', (plainWaited job (.blocking (some d)) woken : Frame Tid T) =
      .plain job (.blocking (some d)) st' := fun _ => ⟨_, rfl⟩
  unfold plainResume at h
  split at h
  · cases h
    exact .inr (.inl (finishWith_firing _ _))
  · cases h
    unfold plainFailed
    split
    · exact .inr (.inl trivial)
    · rename_i hmode _
      cases hmode
    · split <;> exact .inl ⟨_, rfl⟩
  · cases h
    exact .inl ⟨_, rfl⟩
  · cases h
    exact .inl ⟨_, rfl⟩
  · cases h
    exact .inl ⟨_, rfl⟩
  · cases h
    exact .inr (.inl trivial)
  · cases h
    exact .inl (waited true)
  · cases h
    exact .inl ⟨_, rfl⟩
  · cases h
    exact .inr (.inl trivial)
  · cases h
    exact .inl (waited false)
  · cases h
    split
    · rename_i hexp
      exact .inr (.inr ⟨_, _, rfl, rfl, by simpa [Mode.deadline] using hexp, rfl⟩)
    · exact .inl ⟨_, rfl⟩
  · cases h

omit [DecidableEq Tid] in
theorem roundOver_looping {h : Handle} {d : Nat} :
    (roundOver [h] (.at d) : Frame Tid T).Looping h d :=
  ⟨rfl, rfl, rfl⟩

theorem selectedNow_looping {h : Handle} {d : Nat} {sel : Selected Tid} :
    (selectedNow t [h] (.at d) sel : Frame Tid T).Looping h d ∨
      (selectedNow t [h] (.at d) sel : Frame Tid T) = .panicked := by
  unfold selectedNow
  split
  · exact .inr rfl
  · split
    · exact .inl ⟨rfl, rfl, trivial⟩
    · exact .inl roundOver_looping
  · exact .inl roundOver_looping

/-- Where `select_timeout` goes from its loop: on, to a fired operation, or to the last try. -/
theorem Looping.resume {h : Handle} {d : Nat} (hf : f.Looping h d)
    (hr : f.resume kind t order r = some g) :
    g.Looping h d ∨ (∃ tk, g = .chosen h tk) ∨ g = .panicked ∨
      ∃ now, f = .select [h] (.at d) (.timeCheck d) ∧ r = .nat now ∧ d ≤ now ∧
        g = .select [h] .now (.probe 0 none) := by
  have inner : g.Looping h d ∨ (∃ tk, g = .chosen h tk) ∨ g = .panicked →
      g.Looping h d ∨ (∃ tk, g = .chosen h tk) ∨ g = .panicked ∨
        ∃ now, f = .select [h] (.at d) (.timeCheck d) ∧ r = .nat now ∧ d ≤ now ∧
          g = .select [h] .now (.probe 0 none) := by
    rintro (h | h | h)
    · exact .inl h
    · exact .inr (.inl h)
    · exact .inr (.inr (.inl h))
  unfold Looping at hf
  split at hf
  · rename_i handles when st
    obtain ⟨rfl, rfl, hst⟩ := hf
    change selectResume t order [h] (.at when) st r = some g at hr
    unfold selectResume at hr
    split at hr
    · split at hr <;> cases hr
      rename_i hperm
      exact .inl ⟨List.perm_singleton.mp hperm, rfl, trivial⟩
    · exact inner (.inr (.inl ⟨_, choose_one hr⟩))
    · exact inner (.inr (.inl ⟨_, choose_one hr⟩))
    · exact hst.elim
    · rw [nextHandle_last] at hr
      cases hr
      exact .inl ⟨rfl, rfl, trivial⟩
    · exact inner (retryResume_looping hr)
    · cases hr
      exact .inl ⟨rfl, rfl, trivial⟩
    · cases hr
      rename_i ok
      cases ok <;> exact .inl ⟨rfl, rfl, trivial⟩
    · cases hr
      exact .inl ⟨rfl, rfl, trivial⟩
    · rw [nextHandle_last] at hr
      cases hr
      split <;> exact .inl ⟨rfl, rfl, trivial⟩
    · rw [nextHandle_last] at hr
      cases hr
      exact .inl ⟨rfl, rfl, trivial⟩
    · cases hr
      exact .inl ⟨rfl, rfl, trivial⟩
    · rw [Option.some.injEq] at hr
      split at hr <;> subst hr
      · exact .inl ⟨rfl, rfl, trivial⟩
      · exact inner (selectedNow_looping.imp_right .inr)
    · cases hr
      exact .inl roundOver_looping
    · cases hr
      obtain rfl : _ = when := hst
      split
      · rename_i hexp
        exact .inr (.inr (.inr ⟨_, rfl, rfl, hexp, rfl⟩))
      · exact .inl loopStart_looping
    · exact hst.elim
    · exact hst.elim
    · exact hst.elim
    · exact hst.elim
    · exact hst.elim
    · cases hr
  · exact hf.elim

/-- The last try. -/
theorem probeResume_cases {h : Handle}
    (hr : (Frame.select [h] .now (.probe 0 none) : Frame Tid T).resume kind t order r = some g) :
    ((∃ tk, r = .token tk) ∧ ∃ tk, g = .chosen h tk) ∨ (r = .failed ∧ g = .done .notReady) := by
  cases r with
  | token tk => exact .inl ⟨⟨tk, rfl⟩, tk, choose_one (i := 0) hr⟩
  | failed =>
    cases hr
    exact .inr ⟨rfl, rfl⟩
  | _ => cases hr

end Frame

namespace World

variable [DecidableEq Tid] {kind : Nat → Kind T} {x : (system kind : Lib.System (World Tid T) _).Exec}
  {t : Tid} {i j c d : Nat}

/-- Thread `t` began the operation in step `i`, and it is the last one it began before `j`. -/
structure Began (x : (system kind : Lib.System (World Tid T) _).Exec) (t : Tid) (op : Op T)
    (i j : Nat) : Prop where
  lt : i < j
  start : (x.state i).step kind (.start t op) = some (x.state (i + 1))
  ops : ((x.state j).thread t).ops = ((x.state (i + 1)).thread t).ops

theorem Began.first {op : Op T} (h : Began x t op i j) :
    ((x.state (i + 1)).thread t).frame = op.frame kind ∧
      ((x.state (i + 1)).thread t).ops = ((x.state i).thread t).ops + 1 := by
  have hstart := h.start
  simp only [step] at hstart
  split at hstart
  · rename_i hc
    have hw := Option.some.inj hstart
    have ha := begin_after (x.state i) hc.1 (op.frame kind) op.uses op.job
    rw [hw] at ha
    exact ⟨ha.frame, ha.ops⟩
  · cases hstart

/-- **The condition.** A `recv_timeout` that gives up has begun an attempt after its deadline, or
    the channel is empty and connected at that moment. -/
def TriesAgain (x : (system kind : Lib.System (World Tid T) _).Exec) : Prop :=
  ∀ j < x.len, ∀ t c d woken, (kind c).Buffered →
    ((x.state j).thread t).frame = .plain ⟨c, none⟩ (.blocking (some d)) (.deadline woken) →
    ((x.state (j + 1)).thread t).frame = .done (.timeout none) →
    (x.state j).Unready c ∨ ∃ k ≤ j, ((x.state k).thread t).ops = ((x.state j).thread t).ops ∧
      d ≤ (x.state k).shared.clock ∧ ((x.state k).shared.buffer c).phase t = .idle ∧
      ∃ n, ((x.state k).thread t).frame = .plain ⟨c, none⟩ (.blocking (some d)) (.attempt n)

theorem start_onBuffer (hk : (kind c).Buffered) (d : Side) :
    (kind c).starts c d = some (c, .start d) := by
  cases hkind : kind c <;> rw [hkind] at hk <;> first | rfl | exact hk.elim

theorem clock_run (hij : i ≤ j) (hj : j ≤ x.len) :
    (x.state i).shared.clock ≤ (x.state j).shared.clock :=
  x.persists (Q := fun w => (x.state i).shared.clock ≤ w.shared.clock)
    (fun _ _ _ _ hs h => Nat.le_trans h (clock_step hs)) hij hj (Nat.le_refl _)

/-- A fired operation stays so to its end. -/
theorem firing_step (hj : j < x.len)
    (hops : ((x.state (j + 1)).thread t).ops = ((x.state j).thread t).ops)
    (h : ((x.state j).thread t).frame.Firing) : ((x.state (j + 1)).thread t).frame.Firing := by
  obtain ⟨l, hl⟩ := x.next j hj
  rcases frame_step hl hops with hsame | ⟨-, -, r, order, -, -, hres⟩ | ⟨y, tk, msg, hf, -⟩
  · rwa [hsame]
  · exact h.resume hres
  · rw [hf] at h
    exact h.elim

/-- A `recv_timeout` that tries after its deadline is refused after its deadline, or fired. -/
theorem refused_after (hk : (kind c).Buffered) {n : Nat} (hij : i ≤ j) (hj : j ≤ x.len)
    (hops : ((x.state j).thread t).ops = ((x.state i).thread t).ops)
    (hd : d ≤ (x.state i).shared.clock) (hidle : ((x.state i).shared.buffer c).phase t = .idle)
    (hf : ((x.state i).thread t).frame = .plain ⟨c, none⟩ (.blocking (some d)) (.attempt n)) :
    (∃ n, ((x.state j).thread t).frame = .plain ⟨c, none⟩ (.blocking (some d)) (.attempt n)) ∨
      ((x.state j).thread t).frame.Firing ∨ During x i j d fun w => w.Unready c := by
  have hcall : ∀ n pr, (Frame.plain ⟨c, none⟩ (.blocking (some d)) (.attempt n) :
      Frame Tid T).call.onBuffer kind pr = some (c, .start .recv) := fun _ _ => start_onBuffer hk .recv
  refine (along (P := fun m => (∃ n, ((x.state m).thread t).frame =
      .plain ⟨c, none⟩ (.blocking (some d)) (.attempt n) ∧
        Found x i m c d (((x.state m).shared.buffer c).phase t)) ∨
      ((x.state m).thread t).frame.Firing ∨ During x i m d fun w => w.Unready c)
    hij hj hops (.inl ⟨n, hf, by rw [hidle]; trivial⟩) ?_).imp_left fun ⟨n, hn, _⟩ => ⟨n, hn⟩
  intro m him hmj hops' h
  rcases h with ⟨n, hn, hfound⟩ | hfiring | hduring
  · have hclock := Nat.le_trans hd (clock_run (x := x) him (by omega))
    rcases attempt_step (by omega) him hclock (by rw [hn]; exact hcall _ _) hops' hfound with
      ⟨hsame, -, hfound'⟩ | ⟨order, r, hres, ⟨tk, rfl⟩ | ⟨rfl, hduring⟩⟩
    · exact .inl ⟨n, hsame.trans hn, hfound'⟩
    · rw [hn] at hres
      have hg := Option.some.inj hres
      exact .inr (.inl (hg ▸ Frame.finishWith_firing _ _))
    · exact .inr (.inr (hduring.mono (Nat.le_refl i) (Nat.le_succ m) fun _ h => h))
  · exact .inr (.inl (firing_step (by omega) hops' hfiring))
  · exact .inr (.inr (hduring.mono (Nat.le_refl i) (Nat.le_succ m) fun _ h => h))

/-- A `recv_timeout` that gives up. -/
theorem recvTimeout_late (hcond : TriesAgain x) (hk : (kind c).Buffered) (hj : j ≤ x.len)
    (hb : Began x t (.recvTimeout c d) i j)
    (hout : ((x.state j).thread t).frame = .done (.timeout none)) :
    During x (i + 1) j d fun w => w.Unready c := by
  obtain ⟨hfirst, hops1⟩ := hb.first
  have hlt := hb.lt
  have hplain : ((x.state (i + 1)).thread t).frame =
      .plain ⟨c, none⟩ (.blocking (some d)) (.attempt 0) := by
    rw [hfirst]
    simp only [Op.recvTimeout, Op.frame]
    cases hkind : kind c <;> rw [hkind] at hk <;> first | rfl | exact hk.elim
  have hend := along (P := fun m =>
      (∃ st, ((x.state m).thread t).frame = .plain ⟨c, none⟩ (.blocking (some d)) st) ∨
      ((x.state m).thread t).frame.Firing ∨ During x (i + 1) m d fun w => w.Unready c)
    hlt hj hb.ops (.inl ⟨_, hplain⟩) ?_
  · rcases hend with ⟨st, hf⟩ | hfiring | hduring
    · rw [hout] at hf
      cases hf
    · rw [hout] at hfiring
      exact hfiring.elim
    · exact hduring
  · intro m him hmj hops h
    rcases h with ⟨st, hf⟩ | hfiring | hduring
    · obtain ⟨l, hl⟩ := x.next m (by omega)
      rcases frame_step hl hops with hsame | ⟨spurious, act, r, order, he, -, hres⟩ | ⟨y, tk, msg, hc, -⟩
      · exact .inl ⟨st, hsame.trans hf⟩
      · rw [hf] at hres he
        rcases Frame.plainResume_cases hres with ⟨st', hst'⟩ | hfiring | ⟨woken, now, rfl, rfl, hd, hg⟩
        · exact .inl ⟨st', hst'⟩
        · exact .inr (.inl hfiring)
        · -- The body gives up: the clock has been read.
          obtain rfl : (x.state m).shared.clock = now := by
            simpa [Frame.call, Frame.plainCall, Shared.exec] using
              (Prod.mk.inj (Option.some.inj he)).2
          refine .inr (.inr ?_)
          -- By the condition the channel is not ready now, or an attempt was begun behind the deadline.
          rcases hcond m (by omega) t c d woken hk hf hg with hunready | ⟨k, hkm, hopsk, hdk, hidle, n, hfk⟩
          · exact ⟨m, him, Nat.le_succ m, hd, hunready⟩
          · have hik : i + 1 ≤ k := by
              by_contra hki
              have hbefore := ops_run (x := x) (show k ≤ i by omega) (by omega) t
              have hafter := ops_run (x := x) (show i + 1 ≤ m from him) (by omega) t
              omega
            -- That attempt is over by now. Had it succeeded, the body would not give up.
            rcases refused_after hk hkm (by omega) hopsk.symm hdk hidle hfk with ⟨n', hn'⟩ | hfiring | hduring
            · rw [hf] at hn'
              cases hn'
            · rw [hf] at hfiring
              exact hfiring.elim
            · exact hduring.mono hik (Nat.le_succ m) fun _ h => h
      · rw [hf] at hc
        cases hc
    · exact .inr (.inl (firing_step (by omega) hops hfiring))
    · exact .inr (.inr (hduring.mono (Nat.le_refl _) (Nat.le_succ m) fun _ h => h))

/-- A `select_timeout` that returns nothing. -/
theorem selectTimeout_late {ptr : Nat} (hk : (kind c).Buffered) (hj : j ≤ x.len)
    (hb : Began x t (.selectTimeout c ptr d) i j)
    (hout : ((x.state j).thread t).frame = .done .notReady) :
    During x (i + 1) j d fun w => w.Unready c := by
  obtain ⟨hfirst, -⟩ := hb.first
  obtain ⟨h, hh⟩ : ∃ h : Handle, h = ⟨c, .recv, 0, ptr⟩ := ⟨_, rfl⟩
  have hloop : ((x.state (i + 1)).thread t).frame.Looping h d := by
    rw [hfirst, hh]
    exact ⟨rfl, rfl, trivial⟩
  have hcall : ∀ pr, (Frame.select [h] .now (.probe 0 none) : Frame Tid T).call.onBuffer kind pr =
      some (c, .start .recv) := fun _ => by
    rw [hh]
    exact start_onBuffer hk .recv
  have hend := along (P := fun m =>
      ((x.state m).thread t).frame.Looping h d ∨
      (((x.state m).thread t).frame = .select [h] .now (.probe 0 none) ∧
        d ≤ (x.state m).shared.clock ∧
        Found x (i + 1) m c d (((x.state m).shared.buffer c).phase t)) ∨
      (∃ tk, ((x.state m).thread t).frame = .chosen h tk) ∨
      ((x.state m).thread t).frame.Firing ∨ During x (i + 1) m d fun w => w.Unready c)
    hb.lt hj hb.ops (.inl hloop) ?_
  · rw [hout] at hend
    rcases hend with hloop | ⟨hf, -⟩ | ⟨tk, hf⟩ | hfiring | hduring
    · exact hloop.elim
    · cases hf
    · cases hf
    · exact hfiring.elim
    · exact hduring
  · intro m him hmj hops hm
    obtain ⟨l, hl⟩ := x.next m (by omega)
    rcases hm with hloop | ⟨hf, hd, hfound⟩ | ⟨tk, hf⟩ | hfiring | hduring
    · rcases frame_step hl hops with hsame | ⟨spurious, act, r, order, he, hw, hres⟩ | ⟨y, tk, msg, hc, -⟩
      · exact .inl (hsame ▸ hloop)
      · rcases hloop.resume hres with hloop' | hchosen | hpanic | ⟨now, hf, rfl, hd, hg⟩
        · exact .inl hloop'
        · exact .inr (.inr (.inl hchosen))
        · exact .inr (.inr (.inr (.inl (hpanic ▸ trivial))))
        · -- The time is up, and the thread is outside every call.
          rw [hf] at he
          cases he
          have hidle : ((x.state m).shared.buffer c).phase t = .idle := by
            have hphase := (sound_of_reachable (x.reachable (show m ≤ x.len by omega))).phase t c
            rw [hf] at hphase
            exact hphase
          refine .inr (.inl ⟨hg, ?_, ?_⟩)
          · rw [hw]
            exact hd
          · rw [hw]
            change Found x (i + 1) (m + 1) c d (((x.state m).shared.buffer c).phase t)
            rw [hidle]
            trivial
      · rw [hc] at hloop
        exact hloop.elim
    · rcases attempt_step (by omega) him hd (by rw [hf]; exact hcall _) hops hfound with
        ⟨hsame, -, hfound'⟩ | ⟨order, r, hres, htoken⟩
      · exact .inr (.inl ⟨hsame.trans hf, Nat.le_trans hd (clock_step hl), hfound'⟩)
      · rw [hf] at hres
        rcases Frame.probeResume_cases hres with ⟨-, hchosen⟩ | ⟨rfl, -⟩
        · exact .inr (.inr (.inl hchosen))
        · rcases htoken with ⟨tk, htk⟩ | ⟨-, hduring⟩
          · cases htk
          · exact .inr (.inr (.inr (.inr
              (hduring.mono (Nat.le_refl _) (Nat.le_succ m) fun _ h => h))))
    · rcases frame_step hl hops with hsame | ⟨spurious, act, r, order, he, -⟩ | ⟨y, tk', msg, -, hg⟩
      · exact .inr (.inr (.inl ⟨tk, hsame.trans hf⟩))
      · rw [hf] at he
        cases he
      · exact .inr (.inr (.inr (.inl (hg ▸ Frame.finishWith_firing _ _))))
    · exact .inr (.inr (.inr (.inl (firing_step (by omega) hops hfiring))))
    · exact .inr (.inr (.inr (.inr (hduring.mono (Nat.le_refl _) (Nat.le_succ m) fun _ h => h))))

/-- **The law of the default branch.** Whoever takes it has, not before the deadline, been in a
    state in which the receive was not ready. -/
def TakesDefaultLate (x : (system kind : Lib.System (World Tid T) _).Exec) (op : Nat → Nat → Op T)
    (out : Outcome T) : Prop :=
  ∀ i j t c d, j ≤ x.len → (kind c).Buffered → Began x t (op c d) i j →
    ((x.state j).thread t).frame = .done out → During x (i + 1) j d fun w => w.Unready c

/-- **The two forms and the law.** The general form keeps it in every run. The optimised form
    keeps it in the runs in which it tries after its deadline, which its code does not see to. -/
theorem timed_select_agrees (x : (system kind : Lib.System (World Tid T) _).Exec) :
    (∀ ptr, TakesDefaultLate x (Op.selectTimeout · ptr ·) .notReady) ∧
      (TriesAgain x → TakesDefaultLate x Op.recvTimeout (.timeout none)) :=
  ⟨fun _ _ _ _ _ _ hj hk hb hout => selectTimeout_late hk hj hb hout,
    fun hcond _ _ _ _ _ hj hk hb hout => recvTimeout_late hcond hk hj hb hout⟩

/-- Thread 0 waits for a message until the time 5. -/
def waitsTillFive : List (Label Nat Nat) :=
  .start 0 (Op.recvTimeout 0 5) :: List.replicate 86 (.run 0 false [])

/-- No message comes. -/
def nothingComes : List (Label Nat Nat) :=
  waitsTillFive ++ .advance 6 :: List.replicate 17 (.run 0 false [])

theorem timed_select_agrees_nothingComes :
    ∃ x : (system fun _ => .list : Lib.System (World Nat Nat) _).Exec,
      ((x.state 105).thread 0).frame = .done (.timeout none) ∧
        TakesDefaultLate x Op.recvTimeout (.timeout none) := by
  let x : (system fun _ => .list : Lib.System (World Nat Nat) _).Exec :=
    Lib.System.Exec.ofReplay (fun _ _ _ hs => hs) _ rfl nothingComes (by decide +kernel)
  have hactive : ∀ i ≤ 105, ∀ u ∈ (x.state i).active, u = 0 := by decide +kernel
  have hgoing : ∀ i < 104, ((x.state (i + 1)).thread 0).frame.ended = false := by decide +kernel
  refine ⟨x, rfl, (timed_select_agrees x).2 ?_⟩
  intro j hj t c d woken _ hf hg
  have hj : j < 105 := hj
  have hlent := lent_of_reachable (x.reachable (show j ≤ x.len from hj.le))
  obtain rfl : t = 0 := hactive j hj.le t ((hlent.active t).mpr (by rw [hf]; rfl))
  obtain rfl : j = 104 := by
    by_contra hne
    have hrun := hgoing j (by omega)
    rw [hg] at hrun
    cases hrun
  have hlast : ((x.state 104).thread 0).frame = .plain ⟨0, none⟩ (.blocking (some 5)) (.deadline false) :=
    rfl
  rw [hlast] at hf
  cases hf
  exact .inl ⟨rfl, rfl⟩

/-- The message comes at 0 and thread 0 is woken for it, but takes its next step at 6. -/
def runsTooLate : List (Label Nat Nat) :=
  waitsTillFive ++ .start 1 (.plain ⟨0, some 7⟩ (.blocking none)) :: List.replicate 12 (.run 1 false []) ++
    .advance 6 :: List.replicate 2 (.run 0 false [])

/-- It gives up, though the message has been there since before its deadline. -/
theorem runsTooLate_gives_up :
    ∃ x : (system fun _ => .list : Lib.System (World Nat Nat) _).Exec,
      ¬ TakesDefaultLate x Op.recvTimeout (.timeout none) := by
  let x : (system fun _ => .list : Lib.System (World Nat Nat) _).Exec :=
    Lib.System.Exec.ofReplay (fun _ _ _ hs => hs) _ rfl runsTooLate (by decide +kernel)
  have hnot : ∀ k ≤ 103, 5 ≤ (x.state k).shared.clock →
      ((x.state k).shared.buffer 0).view.sends ≠ ((x.state k).shared.buffer 0).view.recvs := by
    decide +kernel
  have hops : ((x.state 103).thread 0).ops = ((x.state 1).thread 0).ops := rfl
  refine ⟨x, fun hlate => ?_⟩
  obtain ⟨k, -, hk, hclock, hempty, -⟩ :=
    hlate 0 103 0 0 5 (Nat.le_refl 103) trivial ⟨by decide, rfl, hops⟩ rfl
  exact hnot k hk hclock hempty

end World

end CrossbeamChannel
