import CrossbeamChannel.World.Effects

/-!
# The timed channels (`src/flavors/after.rs`, `src/flavors/tick.rs`)

The messages of an `after` or a `tick` channel are materialised when they are received, in
the step that takes the flag or the tick. `World.receipt` writes these receptions down, each
with the reading of the clock it is made at, and the laws of the two flavors are laws of what
is written down in a whole run.

`tick` keeps `next_tick` and `index` under a mutex (`tick.rs` 20-26), and a reception moves `next_tick`
to a period after the present (58-61), not after the old `next_tick`. So messages are spaced by at least
one period, and a late receiver delays all that follow. `TickInv` has every message that is written down
at least one period before `next_tick`.
-/

namespace CrossbeamChannel

variable {Tid T : Type} [DecidableEq Tid]

/-- The channel a receive of a timed channel is made on. -/
def Call.source : Call T → Option Nat
  | .start c _ | .retry c _ | .accept c _ | .recvTimer c _ => some c
  | _ => Option.none

omit [DecidableEq Tid] in
theorem Call.source_of_tries {c : Nat} {call : Call T}
    (h : call.Tries c ∨ ∃ deadline, call = .recvTimer c deadline) : call.source = some c := by
  rcases h with ⟨d, rfl | rfl | rfl⟩ | ⟨deadline, rfl⟩ <;> rfl

namespace World

/-- The message of timed channel `c` that is received in this step, and the reading of the
    clock. -/
def receipt (kind : Nat → Kind T) (c : Nat) (w : World Tid T) : Label Tid T → Option (Nat × Nat)
  | .run t spurious _ =>
      match w.shared.exec t kind (w.thread t).frame.call (w.thread t).prog spurious with
      | some (_, .ret (.token (.instant m))) =>
          if (w.thread t).frame.call.source = some c then some (m, w.shared.clock) else none
      | _ => none
  | _ => none

/-- The machine that writes down what is received from channel `c`. -/
def receipts (kind : Nat → Kind T) (c : Nat) :
    Lib.System (World Tid T × List (Nat × Nat)) (Label Tid T) :=
  (system kind).recorded fun w l _ => w.receipt kind c l

end World

namespace Shared

variable {w : Shared Tid T} {t : Tid} {kind : Nat → Kind T} {call : Call T} {pr : Prog}
  {act : Act Tid T} {rep : Reply Tid T} {spurious : Bool} {m : Nat}

/-- What a receive of a timed channel does when it succeeds. -/
def Receives (w : Shared Tid T) (kind : Nat → Kind T) (pr : Prog) (c m : Nat) (act : Act Tid T) :
    Prop :=
  (∃ firstTick duration, kind c = .tick firstTick duration ∧ act = .takeTick c duration ∧
    m = (w.tick c).nextTick ∧ (w.tick c).nextTick ≤ w.clock) ∨
  (kind c = .after m ∧ pr = .swap ∧ act = .setReceived c ∧ w.received c = false)

theorem pair_not_instant {c : Nat} {d : Side} {offer : Option (Packet T)} :
    w.pair t c d offer ≠ (act, .ret (.token (.instant m))) := by
  intro h
  unfold pair at h
  split at h
  · rename_i e he
    cases hp : e.packet <;> rw [hp] at h <;> cases h
  · split at h
    · cases h
    · split at h <;> cases h

theorem drive_not_instant {c : Nat} {d : Side} :
    w.drive t c (.start d) .start spurious started ≠ some (act, .ret (.token (.instant m))) := by
  intro h
  obtain ⟨b, a, -, -, hrep⟩ := drive_act h
  cases a with
  | none => cases hrep
  | some a => cases a <;> cases hrep

theorem start_instant {c : Nat} {d : Side}
    (h : w.start t kind c d pr spurious = some (act, .ret (.token (.instant m)))) :
    Receives w kind pr c m act := by
  unfold start at h
  cases hk : kind c with
  | array ch built | list =>
    rw [hk] at h
    exact absurd h drive_not_instant
  | zero =>
    rw [hk] at h
    exact absurd (Option.some.inj h) pair_not_instant
  | after deliveryTime =>
    rw [hk] at h
    dsimp only [tryAfter] at h
    split at h
    · split at h <;> cases h
    · split at h <;> cases h
    · cases hr : w.received c <;> rw [hr] at h <;> cases h
      exact .inr ⟨hk, rfl, rfl, hr⟩
    · cases h
  | tick firstTick duration =>
    rw [hk] at h
    dsimp only [tryTick] at h
    split at h <;> cases h
    exact .inl ⟨firstTick, duration, hk, rfl, rfl, ‹_›⟩
  | never =>
    rw [hk] at h
    cases h

/-- **Where the messages of the timed channels come from.** -/
theorem exec_instant
    (h : w.exec t kind call pr spurious = some (act, .ret (.token (.instant m)))) :
    ∃ c, call.source = some c ∧ Receives w kind pr c m act := by
  cases call with
  | start c d => exact ⟨c, rfl, start_instant h⟩
  | retry c d =>
    refine ⟨c, rfl, ?_⟩
    simp only [exec, retry] at h
    split at h
    · exact absurd (Option.some.inj h) pair_not_instant
    · exact start_instant h
  | accept c d =>
    refine ⟨c, rfl, ?_⟩
    simp only [exec, accept] at h
    split at h
    · unfold waitPacket at h
      cases hp : (w.reg.cx t).packet <;> rw [hp] at h <;> cases h
    · exact start_instant h
  | recvTimer c deadline =>
    refine ⟨c, rfl, ?_⟩
    simp only [exec, recvTimer, orExpired] at h
    cases hk : kind c with
    | after deliveryTime =>
      rw [hk] at h
      cases pr <;> dsimp only at h <;> repeat' split at h
      all_goals cases h
      exact .inr ⟨hk, rfl, rfl, Bool.eq_false_of_not_eq_true ‹_›⟩
    | tick firstTick duration =>
      rw [hk] at h
      dsimp only at h
      repeat' split at h
      all_goals cases h
      exact .inl ⟨firstTick, duration, hk, rfl, rfl, ‹_›⟩
    | never =>
      rw [hk] at h
      dsimp only at h
      repeat' split at h
      all_goals cases h
    | array ch built | list | zero =>
      rw [hk] at h
      cases h
  | register c d slot =>
    simp only [exec, Shared.register, registerBuffer] at h
    repeat' split at h
    all_goals first | cases h | skip
    all_goals
      obtain ⟨b, a, -, -, hrep⟩ := drive_act h
      cases a with
      | none => cases hrep
      | some a => cases a <;> first | cases hrep | (rename_i b; cases b <;> cases hrep)
  | unregister c d slot =>
    simp only [exec, Shared.unregister, unregisterSync] at h
    repeat' split at h
    all_goals cases h
  | state c d =>
    simp only [exec, Shared.state] at h
    repeat' split at h
    all_goals cases h
  | write _ _ | read _ | setDisconnected _ =>
    obtain ⟨b, a, -, -, hrep⟩ := drive_act h
    cases a <;> cases hrep
  | wakeOne c d =>
    simp only [exec, wakeOneSync] at h
    repeat' split at h
    all_goals cases h
  | pair c d offer => exact absurd (Option.some.inj h) pair_not_instant
  | waitReady p =>
    simp only [exec] at h
    split at h <;> cases h
  | waitUntil deadline =>
    simp only [exec, waitUntil, orSelected, Shared.abort] at h
    repeat' split at h
    all_goals cases h
  | waitPacket =>
    simp only [exec, Shared.waitPacket] at h
    split at h <;> cases h
  | _ => cases h

end Shared

namespace World

variable {kind : Nat → Kind T} {w w' : World Tid T}

/-- Nothing is received from channel `c`. -/
structure Idles (w w' : World Tid T) (c : Nat) : Prop where
  tick : w'.shared.tick c = w.shared.tick c
  received : w'.shared.received c = w.shared.received c
  clock : w.shared.clock ≤ w'.shared.clock

/-- Thread `t` receives a message `m` from channel `c`. -/
structure Takes (kind : Nat → Kind T) (w w' : World Tid T) (t : Tid) (c m : Nat) : Prop where
  step : ∃ spurious order, w.step kind (.run t spurious order) = some w'
  clock : w'.shared.clock = w.shared.clock
  source : (w.thread t).frame.call.source = some c
  taken : (∃ firstTick duration, kind c = .tick firstTick duration ∧
      m = (w.shared.tick c).nextTick ∧ m ≤ w.shared.clock ∧
      w'.shared.tick c = ⟨w.shared.clock + duration, (w.shared.tick c).index + 1⟩) ∨
    (kind c = .after m ∧ (w.thread t).prog = .swap ∧ w.shared.received c = false ∧
      w'.shared.received c = true)

/-- **What one step does to a timed channel.** -/
theorem step_timed {l : Label Tid T} (h : w.step kind l = some w') (c : Nat) :
    (w.receipt kind c l = none ∧ Idles w w' c) ∨
      ∃ t spurious order m, l = .run t spurious order ∧
        w.receipt kind c l = some (m, w.shared.clock) ∧ Takes kind w w' t c m := by
  have same : w'.shared = w.shared → Idles w w' c := by
    intro h
    constructor <;> rw [h]
  cases l with
  | start t op =>
    simp only [step] at h
    split at h <;> cases h
    exact .inl ⟨rfl, same (put_shared _ _ _)⟩
  | complete t msg =>
    simp only [step] at h
    split at h
    · split at h <;> cases h
      exact .inl ⟨rfl, same (put_shared _ _ _)⟩
    · cases h
  | clone c d =>
    simp only [step] at h
    split at h <;> cases h
    exact .inl ⟨rfl, same rfl⟩
  | drop t c d =>
    simp only [step] at h
    split at h <;> cases h
    exact .inl ⟨rfl, same (put_shared _ _ _)⟩
  | advance now =>
    simp only [step] at h
    split at h <;> cases h
    exact .inl ⟨rfl, ⟨rfl, rfl, ‹_›⟩⟩
  | run t spurious order =>
    obtain ⟨act, rep, hexec, hshared⟩ : ∃ act rep, w.shared.exec t kind (w.thread t).frame.call
        (w.thread t).prog spurious = some (act, rep) ∧ w'.shared = w.shared.apply t act := by
      simp only [step, run] at h
      split at h
      · cases h
      · cases h
        exact ⟨_, _, ‹_›, rfl⟩
      · obtain ⟨f, -, rfl⟩ := Option.map_eq_some_iff.mp h
        exact ⟨_, _, ‹_›, put_shared _ _ _⟩
    have hreceipt : w.receipt kind c (.run t spurious order) =
        match some (act, rep) with
        | some (_, .ret (.token (.instant m))) =>
            if (w.thread t).frame.call.source = some c then some (m, w.shared.clock) else none
        | _ => none := by
      simp only [receipt, hexec]
    -- A reception is a call that returns an instant. Any other call leaves this channel as it is.
    by_cases htakes : ∃ m, rep = .ret (.token (.instant m)) ∧ (w.thread t).frame.call.source = some c
    · obtain ⟨m, rfl, hsource⟩ := htakes
      obtain ⟨c', hsource', hreceives⟩ := Shared.exec_instant hexec
      obtain rfl : c = c' := Option.some.inj (hsource.symm.trans hsource')
      refine .inr ⟨t, spurious, order, m, rfl, ?_, ?_⟩
      · rw [hreceipt]
        exact if_pos hsource
      · rcases hreceives with ⟨firstTick, duration, hk, rfl, hm, hdue⟩ | ⟨hk, hpr, rfl, hr⟩
        · refine ⟨⟨spurious, order, h⟩, by rw [hshared]; rfl, hsource,
            .inl ⟨firstTick, duration, hk, hm, hm ▸ hdue, ?_⟩⟩
          rw [hshared]
          exact Function.update_self ..
        · refine ⟨⟨spurious, order, h⟩, by rw [hshared]; rfl, hsource, .inr ⟨hk, hpr, hr, ?_⟩⟩
          rw [hshared]
          exact Function.update_self ..
    · have hnone : w.receipt kind c (.run t spurious order) = none := by
        rw [hreceipt]
        split
        · rename_i m heq
          cases heq
          exact if_neg fun hsource => htakes ⟨_, rfl, hsource⟩
        · rfl
      refine .inl ⟨hnone, ?_⟩
      have hex := Shared.exec_explains hexec
      cases act with
      | takeTick c' duration =>
        by_cases hc : c = c'
        · subst hc
          obtain ⟨hcall, -, -, rfl⟩ := hex
          exact absurd ⟨_, rfl, Call.source_of_tries hcall⟩ htakes
        · refine ⟨?_, by rw [hshared]; rfl, by rw [hshared]; rfl⟩
          rw [hshared]
          exact Function.update_of_ne hc ..
      | setReceived c' =>
        refine ⟨by rw [hshared]; rfl, ?_, by rw [hshared]; rfl⟩
        rw [hshared]
        by_cases hc : c = c'
        · subst hc
          obtain ⟨hcall, deliveryTime, hk, hfirst, -⟩ := hex
          cases hr : w.shared.received c with
          | true => exact Function.update_self ..
          | false => exact absurd ⟨_, hfirst hr, Call.source_of_tries hcall⟩ htakes
        · exact Function.update_of_ne hc ..
      | _ => constructor <;> rw [hshared] <;> rfl

/-! ## The tick flavor -/

/-- The laws of what is received from a `tick` channel: a list of messages, each with the
    reading of the clock when it was received. -/
structure TickLaws (creation duration : Nat) (log : List (Nat × Nat)) : Prop where
  first : ∀ x ∈ log.head?, x.1 = creation + duration
  spaced : log.Pairwise fun x y => x.1 + duration ≤ y.1
  due : ∀ x ∈ log, x.1 ≤ x.2

/-- The laws, and how the channel stands to what was received from it. -/
structure TickInv (creation duration c : Nat) (w : World Tid T) (log : List (Nat × Nat)) : Prop where
  laws : TickLaws creation duration log
  index : (w.shared.tick c).index = log.length
  fresh : log = [] → (w.shared.tick c).nextTick = creation + duration
  next : ∀ x ∈ log, x.1 + duration ≤ (w.shared.tick c).nextTick

variable {creation duration c : Nat} {log : List (Nat × Nat)}

/-- The messages received by time `now` are so many that each had its time. -/
theorem TickLaws.count (h : TickLaws creation duration log) (hd : 0 < duration) (now : Nat) :
    (log.filter fun x => x.2 ≤ now).length ≤ (now - creation) / duration := by
  have spaced : ∀ (l : List (Nat × Nat)) start, l.Pairwise (fun x y => x.1 + duration ≤ y.1) →
      (∀ x ∈ l, start ≤ x.1) → (∀ x ∈ l, x.1 ≤ now) → l.length * duration ≤ now + duration - start := by
    intro l
    induction l with
    | nil => intros; simp
    | cons x l ih =>
      intro start hp hstart hnow
      obtain ⟨hx, hp⟩ := List.pairwise_cons.mp hp
      have hlen := ih (x.1 + duration) hp hx fun y hy => hnow y (List.mem_cons_of_mem _ hy)
      have hstart := hstart x List.mem_cons_self
      have hnow := hnow x List.mem_cons_self
      rw [List.length_cons, Nat.succ_mul]
      omega
  have hstart : ∀ x ∈ log, creation + duration ≤ x.1 := by
    have hfirst := h.first
    have hspaced := h.spaced
    cases log with
    | nil => simp
    | cons y log =>
      have hy : y.1 = creation + duration := hfirst y rfl
      intro x hx
      rcases List.mem_cons.mp hx with rfl | hx
      · exact hy.ge
      · have := (List.pairwise_cons.mp hspaced).1 x hx
        omega
  refine (Nat.le_div_iff_mul_le hd).mpr ?_
  have hlen := spaced (log.filter fun x => x.2 ≤ now) (creation + duration)
    (h.spaced.sublist List.filter_sublist) (fun x hx => hstart x (List.mem_filter.mp hx).1) fun x hx => by
      obtain ⟨hx, hle⟩ := List.mem_filter.mp hx
      exact (h.due x hx).trans (of_decide_eq_true hle)
  omega

omit [DecidableEq Tid] in
/-- Receiving the next message keeps the laws. -/
theorem TickInv.take (h : TickInv creation duration c w log)
    (hdue : (w.shared.tick c).nextTick ≤ w.shared.clock)
    (htick : w'.shared.tick c = ⟨w.shared.clock + duration, (w.shared.tick c).index + 1⟩) :
    TickInv creation duration c w' (log ++ [((w.shared.tick c).nextTick, w.shared.clock)]) where
  laws := {
    first := by
      cases log with
      | nil =>
        intro x hx
        cases hx
        exact h.fresh rfl
      | cons y log => exact h.laws.first
    spaced := by
      refine List.pairwise_append.mpr ⟨h.laws.spaced, List.pairwise_singleton _ _, fun x hx y hy => ?_⟩
      obtain rfl := List.mem_singleton.mp hy
      exact h.next x hx
    due := by
      intro x hx
      rcases List.mem_append.mp hx with hx | hx
      · exact h.laws.due x hx
      · obtain rfl := List.mem_singleton.mp hx
        exact hdue }
  index := by rw [htick, List.length_append, List.length_singleton, h.index]
  fresh := fun hnil => absurd hnil (by simp)
  next := by
    intro x hx
    rw [htick]
    rcases List.mem_append.mp hx with hx | hx
    · exact (h.next x hx).trans (hdue.trans (Nat.le_add_right _ _))
    · obtain rfl := List.mem_singleton.mp hx
      exact Nat.add_le_add_right hdue _

theorem tickInv_of_reachable (hk : kind c = .tick (creation + duration) duration)
    {x : World Tid T × List (Nat × Nat)} (h : (receipts kind c).Reachable x) :
    TickInv creation duration c x.1 x.2 := by
  refine h.invariant (P := fun x => TickInv creation duration c x.1 x.2) ?_
    fun x l y hr hinv hstep => ?_
  · rintro ⟨w, log⟩ ⟨rfl, rfl⟩
    have htick : (World.init kind : World Tid T).shared.tick c = ⟨creation + duration, 0⟩ := by
      simp only [World.init, Shared.init, hk]
    refine ⟨⟨by simp, List.Pairwise.nil, by simp⟩, ?_, fun _ => ?_, by simp⟩
    · rw [htick]
      rfl
    · rw [htick]
  · obtain ⟨w, log⟩ := x
    obtain ⟨w', log'⟩ := y
    obtain ⟨hs, hlog⟩ := hstep
    dsimp only at hlog hs
    subst hlog
    rcases step_timed hs c with ⟨hnone, hidle⟩ | ⟨t, spurious, order, m, rfl, hsome, htakes⟩
    · simp only [hnone, Option.toList_none, List.append_nil]
      exact ⟨hinv.laws, by rw [hidle.tick]; exact hinv.index, by rw [hidle.tick]; exact hinv.fresh,
        by rw [hidle.tick]; exact hinv.next⟩
    · simp only [hsome, Option.toList_some]
      rcases htakes.taken with ⟨firstTick, duration', hk', rfl, hdue, htick⟩ | ⟨hk', -⟩
      · cases hk.symm.trans hk'
        exact hinv.take hdue htick
      · rw [hk] at hk'
        cases hk'

/-- The time `recv` of a `tick` channel computes to sleep before it looks again. -/
def offset (w : World Tid T) (c : Nat) : Option Nat → Int
  | some d => (min (w.shared.tick c).nextTick d : Nat) - (w.shared.clock : Int)
  | none => ((w.shared.tick c).nextTick : Int) - w.shared.clock

/-- `recv` goes to sleep only for a positive time. -/
theorem offset_pos {firstTick : Nat} (hk : kind c = .tick firstTick duration) {t : Tid}
    {deadline : Option Nat} {pr pr' : Prog} {spurious : Bool} {act : Act Tid T}
    (h : w.shared.exec t kind (.recvTimer c deadline) pr spurious = some (act, .more pr')) :
    0 < w.offset c deadline := by
  simp only [Shared.exec, Shared.recvTimer, hk] at h
  split at h
  · cases h
  · rename_i hdue
    simp only [Shared.orExpired] at h
    split at h
    · cases h
    · rename_i hexp
      cases deadline with
      | none =>
        simp only [offset]
        omega
      | some d =>
        simp only [Option.any_some, decide_eq_true_eq] at hexp
        simp only [offset]
        omega

/-- Message number `n` of the `tick` channel is available. -/
def Available (w : World Tid T) (c n : Nat) : Prop :=
  n = (w.shared.tick c).index ∧ (w.shared.tick c).nextTick ≤ w.shared.clock

omit [DecidableEq Tid] in
/-- What `state()` of a `tick` channel returns: the number of messages that have become
    available so far. -/
theorem state_eq {firstTick v : Nat} (hk : kind c = .tick firstTick duration) :
    w.shared.state kind c .recv .start = .ret (.nat v) ↔
      v = (w.shared.tick c).index + if (w.shared.tick c).nextTick ≤ w.shared.clock then 1 else 0 := by
  simp only [Shared.state, hk]
  by_cases h : (w.shared.tick c).nextTick ≤ w.shared.clock
  · simp [h, Nat.not_lt.mpr h, eq_comm]
  · simp [h, Nat.lt_of_not_le h, eq_comm]

/-- How many messages have become available so far. -/
def version (w : World Tid T) (c : Nat) : Nat :=
  (w.shared.tick c).index + if (w.shared.tick c).nextTick ≤ w.shared.clock then 1 else 0

/-- No step takes the version back, and one that makes a message available raises it. -/
theorem version_step {firstTick : Nat} (hk : kind c = .tick firstTick duration) {l : Label Tid T}
    (h : w.step kind l = some w') :
    w.version c ≤ w'.version c ∧
      ∀ n, w'.Available c n → ¬ w.Available c n → w.version c < w'.version c := by
  unfold version Available
  rcases step_timed h c with ⟨-, hidle⟩ | ⟨t, spurious, order, m, rfl, -, htakes⟩
  · rw [hidle.tick]
    have hclock := hidle.clock
    refine ⟨?_, fun n hn hnot => ?_⟩
    · split <;> split <;> omega
    · have hlate : ¬ (w.shared.tick c).nextTick ≤ w.shared.clock := fun h => hnot ⟨hn.1, h⟩
      rw [if_pos hn.2, if_neg hlate]
      omega
  · rcases htakes.taken with ⟨firstTick', duration', hk', rfl, hdue, htick⟩ | ⟨hk', -⟩
    · rw [htick, htakes.clock, if_pos hdue]
      refine ⟨Nat.le_add_right _ _, fun n hn _ => ?_⟩
      rw [if_pos hn.2]
      exact Nat.lt_succ_self _
    · rw [hk] at hk'
      cases hk'

/-- **Equal readings of `state()` mean that nothing became available in between.** -/
theorem no_arrival {firstTick v : Nat} (hk : kind c = .tick firstTick duration)
    {x : Nat → World Tid T} {i j : Nat}
    (hstep : ∀ k < j, ∃ l, (x k).step kind l = some (x (k + 1)))
    (hi : (x i).shared.state kind c .recv .start = .ret (.nat v))
    (hj : (x j).shared.state kind c .recv .start = .ret (.nat v)) {k n : Nat} (hik : i ≤ k)
    (hkj : k < j) (hn : (x (k + 1)).Available c n) : (x k).Available c n := by
  have mono : ∀ b, b ≤ j → ∀ a, a ≤ b → (x a).version c ≤ (x b).version c := by
    intro b hb
    induction b with
    | zero => rintro a ha; obtain rfl : a = 0 := by omega
              exact le_refl _
    | succ b ih =>
      intro a ha
      rcases Nat.lt_or_ge a (b + 1) with hlt | hge
      · obtain ⟨l, hl⟩ := hstep b (by omega)
        exact (ih (by omega) a (by omega)).trans (version_step hk hl).1
      · obtain rfl : a = b + 1 := by omega
        exact le_refl _
  by_contra hnot
  obtain ⟨l, hl⟩ := hstep k hkj
  have hraised := (version_step hk hl).2 n hn hnot
  have hbefore := mono k (by omega) i hik
  have hafter := mono j (le_refl j) (k + 1) hkj
  have hi : v = (x i).version c := (state_eq hk).mp hi
  have hj : v = (x j).version c := (state_eq hk).mp hj
  omega

/-- **The tick flavor.** In every run, the messages received from a `tick` channel start one
    duration after its creation and are at least a duration apart, none is received early, so
    there are at most as many as durations have passed; `recv` never sleeps for a negative
    time; and between two equal readings of `state()` no message becomes available. -/
theorem tick_keeps_time (hk : kind c = .tick (creation + duration) duration)
    (x : (receipts kind c : Lib.System (World Tid T × _) _).Exec) {j : Nat} (hj : j ≤ x.len) :
    TickLaws creation duration (x.state j).2 ∧
    (0 < duration → ∀ now,
      ((x.state j).2.filter fun m => m.2 ≤ now).length ≤ (now - creation) / duration) ∧
    (∀ t deadline pr pr' spurious act,
      (x.state j).1.shared.exec t kind (.recvTimer c deadline) pr spurious = some (act, .more pr') →
        0 ≤ (x.state j).1.offset c deadline) ∧
    ∀ i ≤ j, ∀ v, (x.state i).1.shared.state kind c .recv .start = .ret (.nat v) →
      (x.state j).1.shared.state kind c .recv .start = .ret (.nat v) →
        ∀ k, i ≤ k → k < j → ∀ n, (x.state (k + 1)).1.Available c n → (x.state k).1.Available c n := by
  have hlaws := (tickInv_of_reachable hk (x.reachable hj)).laws
  refine ⟨hlaws, fun hd now => hlaws.count hd now, ?_, ?_⟩
  · intro t deadline pr pr' spurious act h
    exact (offset_pos hk h).le
  · intro i _ v hi hv k hik hkj n hn
    refine no_arrival hk (x := fun k => (x.state k).1) (fun k hk => ?_) hi hv hik hkj hn
    obtain ⟨l, hl⟩ := x.next k (by omega)
    exact ⟨l, hl.1⟩

/-- A tick every 5. -/
def everyFive : Nat → Kind Nat := fun _ => .tick 5 5

/-- A receive at 12 gets the message of time 5. So the next message is that of time 17: another thread
    gets none at 16, and it at 19. -/
def lateTick : List (Label Nat Nat) :=
  let recv (t : Nat) : List (Label Nat Nat) := [.start t (.plain ⟨0, none⟩ .nonblocking), .run t false []]
  .advance 12 :: recv 0 ++ .advance 16 :: recv 1 ++ .advance 19 :: recv 1

theorem tick_keeps_time_lateTick :
    ∃ x : (receipts everyFive 0 : Lib.System (World Nat Nat × _) _).Exec,
      x.len = 9 ∧ (x.state 9).2 = [(5, 12), (17, 19)] ∧ TickLaws 0 5 (x.state 9).2 ∧
        ∀ now, ((x.state 9).2.filter fun m => m.2 ≤ now).length ≤ (now - 0) / 5 := by
  let step := Lib.System.recordStep (fun w l => w.step everyFive l)
    fun (w : World Nat Nat) l _ => w.receipt everyFive 0 l
  have hstep : ∀ x l y, step x l = some y → (receipts everyFive 0).step x l y :=
    fun _ _ _ h => Lib.System.recorded_step (fun _ _ _ hs => hs) h
  let x := Lib.System.Exec.ofReplay hstep (World.init _, []) ⟨rfl, rfl⟩ lateTick (by decide +kernel)
  have hk : everyFive 0 = .tick (0 + 5) 5 := rfl
  have hlaws := tick_keeps_time hk x (le_refl 9)
  exact ⟨x, rfl, rfl, hlaws.1, hlaws.2.1 (by decide)⟩

end World

end CrossbeamChannel
