import CrossbeamChannel.World.InOrder
import CrossbeamChannel.World.Timers

/-!
# Every operation commits itself at most once

An operation commits itself when it takes a position of a buffered channel, pairs up at a zero channel,
or receives the message of a timer. Once it has, no call that could commit it again is left to it, and
nobody else can select it: `World.Chronicle.uncommitted`. The rest of what the history says of a select
is here as well: `World.Committed`.

`run_select` returns as soon as a `try`, a `retry` or an `accept` succeeds (`select.rs` 204, 225, 257, 265
and 328), and its caller completes that operation and no other. `Attempts` are the calls that could commit
the operation at a channel; after a commitment the body has none of them ahead of it. The other way to
commit is to be selected at a zero channel, and who has committed is not registered there any more.
-/

namespace CrossbeamChannel

variable {Tid T : Type}

/-- The operations that commit themselves. -/
def Event.commits : Event Tid T → List (Ident Tid)
  | .take a _ _ _ | .fire a _ => [a]
  | .pair a b _ _ => [a, b]
  | _ => []

theorem Event.Said.commits {e : Event Tid T} (h : e.Said) : e.commits = [] := by
  cases h <;> rfl

theorem Event.commits_of_touch {e : Event Tid T} {x : Ident Tid × Nat} (h : e.touch = some x) :
    e.commits = [] := by
  cases e <;> first | rfl | cases h

/-- The next step of the call may commit the operation, at channel `c`. -/
def Call.Attempts (c : Nat) (call : Call T) : Prop :=
  call.Tries c ∨ (∃ d offer, call = .pair c d offer) ∨ ∃ deadline, call = .recvTimer c deadline

namespace Frame

variable {kind : Nat → Kind T} {f : Frame Tid T} {c : Nat}

theorem call_ne_of_attempts (h : f.call.Attempts c) : f.call ≠ .none := by
  intro hno
  rw [hno] at h
  rcases h with ⟨d, h | h | h⟩ | ⟨d, offer, h⟩ | ⟨deadline, h⟩ <;> cases h

theorem not_chosen_of_attempts (h : f.call.Attempts c) (x : Handle) (tk : Token) : f ≠ .chosen x tk := by
  rintro rfl
  exact call_ne_of_attempts h rfl

theorem ended_of_attempts (h : f.call.Attempts c) : f.ended = false := by
  cases f with
  | done _ | panicked => exact absurd rfl (call_ne_of_attempts h)
  | _ => rfl

theorem not_carries_of_attempts (h : f.call.Attempts c) (p c' : Nat) (d : Side) (msg : Option T) :
    ¬ f.Carries p c' d msg := by
  intro hf
  unfold Carries at hf
  split at hf
  all_goals first | exact hf.elim | skip
  all_goals rcases h with ⟨d', h | h | h⟩ | ⟨d', offer, h⟩ | ⟨deadline, h⟩
  all_goals first | cases h | skip
  all_goals
    simp only [call, finishCall] at h
    split at h <;> cases h

theorem not_wakes_of_attempts (h : f.call.Attempts c) (job : Job T) (out : Outcome T) :
    f ≠ .finish job (.wakeOne out) := by
  rintro rfl
  rcases h with ⟨d, h | h | h⟩ | ⟨d, offer, h⟩ | ⟨deadline, h⟩ <;> cases h

/-- An attempt is made from outside `Context::with`, or it accepts what another thread has selected. -/
theorem calm_of_attempts (h : f.call.Attempts c) : f.Calm kind ∨
    ∃ handles timeout i x, f = .select handles timeout (.accept i) ∧ handles[i]? = some x ∧ x.chan = c := by
  rcases h with ⟨d, h | h | h⟩ | ⟨d, offer, h⟩ | ⟨deadline, h⟩
  · exact .inl (calm_of_call (.inl ⟨c, d, h⟩))
  · exact .inl (calm_of_call (.inr (.inl ⟨c, d, h⟩)))
  · obtain ⟨handles, timeout, i, x, hf, hx, hc, -⟩ := calls_of_eq h
    exact .inr ⟨handles, timeout, i, x, hf, hx, hc.symm⟩
  · exact .inl (calm_of_call (.inr (.inr (.inl ⟨c, d, offer, h⟩))))
  · refine .inl ?_
    rw [calls_of_eq h]
    exact fun _ => rfl

/-- The completion of a selected operation is no select. -/
theorem finishWith_apart {job : Job T} {tk : Token} :
    (∀ handles timeout st, (finishWith kind job tk : Frame Tid T) ≠ .select handles timeout st) ∧
      ∀ x tk', (finishWith kind job tk : Frame Tid T) ≠ .chosen x tk' := by
  rcases finishWith_cases kind job tk with ⟨st, h⟩ | ⟨out, h⟩ <;> rw [h] <;> simp

/-! ## Where a select ends -/

variable [DecidableEq Tid] {t : Tid} {order handles : List Handle} {timeout : Timeout}
  {st : SelectStage Tid} {r : Ret Tid T} {g : Frame Tid T}

/-- Where `run_select` goes on, or with what it returns. -/
inductive SelectLeads (handles : List Handle) (st : SelectStage Tid) (r : Ret Tid T) : Frame Tid T → Prop where
  | stays (order : List Handle) (timeout : Timeout) (st' : SelectStage Tid) :
      SelectLeads handles st r (.select order timeout st')
  | panics : SelectLeads handles st r .panicked
  | gives_up : SelectLeads handles st r (.done .notReady)
  /-- A handle has been tried, with success. -/
  | fires {i : Nat} {x : Handle} {tk : Token} (hx : handles[i]? = some x) (hr : r = .token tk)
      (hst : st = .attempt i ∨ st = .accept i ∨ (∃ states, st = .probe i states) ∨
        st = .again i .first ∨ st = .again i .packet) : SelectLeads handles st r (.chosen x tk)
  /-- The channel has been disconnected in the short pause. -/
  | closes {i : Nat} {x : Handle} (hx : handles[i]? = some x)
      (hst : ∃ p, st = .again i (.dropPacket p .disconnected)) : SelectLeads handles st r (.chosen x .null)

omit [DecidableEq Tid] in
theorem nextHandle_leads {i : Nat} {f : Nat → SelectStage Tid} {last : Frame Tid T}
    (h : SelectLeads handles st r last) : SelectLeads handles st r (nextHandle handles timeout i f last) := by
  unfold nextHandle
  split
  · exact .stays _ _ _
  · exact h

omit [DecidableEq Tid] in
theorem roundOver_leads : SelectLeads handles st r (roundOver handles timeout : Frame Tid T) := by
  unfold roundOver
  split
  · exact .panics
  · exact .stays _ _ _
  · exact .stays _ _ _

omit [DecidableEq Tid] in
theorem retryResume_leads {i : Nat} {rst : RetryStage Tid} (h : retryResume handles timeout i rst r = some g) :
    SelectLeads handles (.again i rst) r g := by
  unfold retryResume at h
  split at h
  · obtain ⟨x, hx, rfl⟩ := Option.map_eq_some_iff.mp h
    exact .fires hx rfl (.inr (.inr (.inr (.inl rfl))))
  · obtain ⟨x, hx, rfl⟩ := Option.map_eq_some_iff.mp h
    exact .fires hx rfl (.inr (.inr (.inr (.inr rfl))))
  · cases h
    exact nextHandle_leads (.stays _ _ _)
  · cases h
    exact .stays _ _ _
  · cases h
    exact .panics
  · cases h
    exact .stays _ _ _
  · cases h
    exact .stays _ _ _
  · cases h
    exact .panics
  · cases h
    exact .stays _ _ _
  · obtain ⟨x, hx, rfl⟩ := Option.map_eq_some_iff.mp h
    exact .closes hx ⟨_, rfl⟩
  · cases h
    exact nextHandle_leads (.stays _ _ _)
  · cases h

/-- **Where a step of `run_select` leads.** -/
theorem select_leads (h : selectResume t order handles timeout st r = some g) :
    SelectLeads handles st r g := by
  unfold selectResume at h
  split at h
  · split at h <;> cases h
    exact .stays _ _ _
  · obtain ⟨x, hx, rfl⟩ := Option.map_eq_some_iff.mp h
    exact .fires hx rfl (.inl rfl)
  · obtain ⟨x, hx, rfl⟩ := Option.map_eq_some_iff.mp h
    exact .fires hx rfl (.inr (.inl rfl))
  · obtain ⟨x, hx, rfl⟩ := Option.map_eq_some_iff.mp h
    exact .fires hx rfl (.inr (.inr (.inl ⟨_, rfl⟩)))
  · cases h
    exact nextHandle_leads (.stays _ _ _)
  · exact retryResume_leads h
  · cases h
    exact .stays _ _ _
  · cases h
    exact .stays _ _ _
  · cases h
    exact .stays _ _ _
  · cases h
    split
    · exact nextHandle_leads (.stays _ _ _)
    · exact .stays _ _ _
  · cases h
    exact nextHandle_leads (.stays _ _ _)
  · cases h
    exact .stays _ _ _
  · cases h
    split
    · exact .stays _ _ _
    -- Everything is unregistered: accept, or go on with the next round.
    · unfold selectedNow
      repeat' split
      · exact .panics
      · exact .stays _ _ _
      · exact roundOver_leads
      · exact roundOver_leads
  · cases h
    exact roundOver_leads
  · cases h
    split
    · unfold nowStart
      split
      · exact .gives_up
      · exact .stays _ _ _
      · exact .stays _ _ _
    · exact .stays _ _ _
  · split at h <;> cases h
    exact .stays _ _ _
  · cases h
    split <;> exact .stays _ _ _
  · cases h
    refine nextHandle_leads ?_
    unfold probed
    split
    · exact .gives_up
    · exact .stays _ _ _
  · cases h
    unfold rechecked
    repeat' split
    · exact .stays _ _ _
    · exact .stays _ _ _
    · exact .gives_up
  · cases h
    split
    · exact .gives_up
    · exact .stays _ _ _
  · cases h

end Frame

namespace World

variable {kind : Nat → Kind T} {w w' : World Tid T} {t : Tid} {act : Act Tid T} {th : Thread Tid T}
  {count : Nat → Side → Nat} {D D' : Ledger Tid T} {h ds ts : List (Event Tid T)} {a : Ident Tid}
  {c : Nat}

/-- An operation that has received the message of a timer has yet to be completed, or has returned. -/
inductive Rings (w : World Tid T) (h : List (Event Tid T)) (a : Ident Tid) (c : Nat) : Prop where
  | chosen {x : Handle} {i : Nat} (hop : a.op = (w.thread a.thread).ops)
      (hf : (w.thread a.thread).frame = .chosen x (.instant i)) (hchan : x.chan = c)
  | returned {i : Nat} (hover : .over a (.okInstant i) ∈ h)

/-- **What the history says of the timers, the selects and the commitments.** -/
structure Committed (kind : Nat → Kind T) (w : World Tid T) (h : List (Event Tid T)) : Prop where
  /-- An operation commits itself at most once, over all channels. -/
  once : (h.flatMap Event.commits).Nodup
  timer : ∀ a c, .fire a c ∈ h → ¬ (kind c).Buffered ∧ ¬ (kind c).IsZero
  rings : ∀ a c, .fire a c ∈ h → w.Rings h a c
  rung : ∀ t x i, (w.thread t).frame = .chosen x (.instant i) → .fire (w.ident t) x.chan ∈ h
  sides : ∀ a c j, .fire a c ∈ h → .ask a j ∈ h → j.chan = c
  /-- A receive from a timer returns with its message, or comes to nothing. -/
  ends : ∀ a out j, ¬ (kind j.chan).Buffered → ¬ (kind j.chan).IsZero → .ask a j ∈ h → .over a out ∈ h →
    (∃ i, out = .okInstant i ∧ .fire a j.chan ∈ h) ∨ out.Refuses none
  unasked : ∀ a out, .over a out ∈ h → (∃ j, .ask a j ∈ h) ∨ out = .notReady ∨ out = .dropped
  begun : ∀ a handles, .among a handles ∈ h → a.op ≤ (w.thread a.thread).ops
  sole : ∀ a handles handles', .among a handles ∈ h → .among a handles' ∈ h → handles = handles'
  /-- A select works on the handles it was begun with. -/
  pool : ∀ t handles timeout st, (w.thread t).frame = .select handles timeout st →
    ∃ handles', .among (w.ident t) handles' ∈ h ∧ handles.Perm handles'
  picked : ∀ t x tk, (w.thread t).frame = .chosen x tk → ∃ handles, .among (w.ident t) handles ∈ h ∧ x ∈ handles
  drawn : ∀ a handles j, .among a handles ∈ h → .ask a j ∈ h → ∃ x ∈ handles, x.chan = j.chan ∧ x.side = j.side

/-! ## Who has not committed itself -/

variable [DecidableEq Tid]

omit [DecidableEq Tid] in
theorem mem_commits {a : Ident Tid} : a ∈ h.flatMap Event.commits ↔
    (∃ c d k, .take a c d k ∈ h) ∨ (∃ c, .fire a c ∈ h) ∨ ∃ b c p, .pair a b c p ∈ h ∨ .pair b a c p ∈ h := by
  rw [List.mem_flatMap]
  constructor
  · rintro ⟨e, he, ha⟩
    cases e with
    | take b c d k =>
      obtain rfl := List.mem_singleton.mp ha
      exact .inl ⟨c, d, k, he⟩
    | fire b c =>
      obtain rfl := List.mem_singleton.mp ha
      exact .inr (.inl ⟨c, he⟩)
    | pair b b' c p =>
      rcases List.mem_cons.mp ha with rfl | ha
      · exact .inr (.inr ⟨b', c, p, .inl he⟩)
      · obtain rfl := List.mem_singleton.mp ha
        exact .inr (.inr ⟨b, c, p, .inr he⟩)
    | _ => cases ha
  · rintro (⟨c, d, k, he⟩ | ⟨c, he⟩ | ⟨b, c, p, he | he⟩)
    · exact ⟨_, he, List.mem_singleton_self _⟩
    · exact ⟨_, he, List.mem_singleton_self _⟩
    · exact ⟨_, he, List.mem_cons_self⟩
    · exact ⟨_, he, List.mem_cons_of_mem _ (List.mem_singleton_self _)⟩

omit [DecidableEq Tid] in
/-- Who runs, holds nothing, has handed nothing over and has not been selected has not committed itself. -/
theorem Chronicle.uncommitted (hc : Chronicle kind w D h) (htr : Traded kind w h)
    (hcm : Committed kind w h) (hrun : (w.thread t).frame.ended = false)
    (hcarry : ∀ p c d msg, ¬ (w.thread t).frame.Carries p c d msg)
    (hsel : ∀ pl : Place, (kind pl.chan).IsZero → (stakes kind w t).made pl →
      (w.shared.reg.cx t).select ≠ .operation (pl.oper t))
    (hfree : ∀ c d, ((w.shared.buffer c).role t).side ≠ some d)
    (hwake : ∀ job out, (w.thread t).frame ≠ .finish job (.wakeOne out))
    (hchosen : ∀ x i, (w.thread t).frame ≠ .chosen x (.instant i)) :
    w.ident t ∉ h.flatMap Event.commits := by
  have running : ∀ out, .over (w.ident t) out ∉ h := fun out hover =>
    hc.attested.not_running hover ⟨rfl, hrun⟩
  have unmet : D.Unmet (w.ident t) := by
    intro p x q hdeal hm hq hident
    obtain ⟨hqt, hqop⟩ := Ident.mk.inj hident
    cases hc.engagements.plays p x q hdeal hm hq with
    | summoned howner hop hmade hsel' hpacket =>
      rw [hqt] at hmade hsel'
      refine hsel q.place ?_ hmade hsel'
      rw [hc.engagements.chan hdeal hq]
      exact hc.engagements.zero p x hdeal
    | carries hop hf =>
      rw [hqt] at hf
      exact hcarry _ _ _ _ hf
    | done hop hf hquit =>
      rw [← hqt, hf] at hrun
      cases hrun
    | gone hop hquit =>
      rw [hqt, hqop] at hop
      exact Nat.lt_irrefl _ hop
  rw [mem_commits]
  rintro (⟨c, d, k, he⟩ | ⟨c, he⟩ | ⟨b, c, p, he | he⟩)
  · cases htr.bears _ _ _ _ he with
    | holds hop hside hticket => exact hfree c d hside
    | wakes hop hf hchan hside hput => exact hwake _ _ hf
    | returned hover hput => exact running _ hover
  · cases hcm.rings _ _ he with
    | chosen hop hf hchan => exact hchosen _ _ hf
    | returned hover => exact running _ hover
  · exact (hc.met_of_pair he).1 unmet
  · exact (hc.met_of_pair he).2 unmet

namespace Page

/-- Who is about to commit itself has not done so before. -/
theorem fresh_of_attempts (hp : Page kind w w' t act th count D D' h ds ts) (hc : Chronicle kind w D h)
    (htr : Traded kind w h) (hcm : Committed kind w h) (hat : (w.thread t).frame.call.Attempts c)
    (hrole : ∀ c' k, (w.thread t).frame.call.onBuffer kind (w.thread t).prog = some (c', k) →
      (w.shared.buffer c').role t = .none)
    (hz : (kind c).IsZero → (w.thread t).frame.Calm kind) : w.ident t ∉ h.flatMap Event.commits := by
  refine hc.uncommitted htr hcm (Frame.ended_of_attempts hat) (Frame.not_carries_of_attempts hat) ?_ ?_
    (Frame.not_wakes_of_attempts hat) fun x i => Frame.not_chosen_of_attempts hat x _
  · intro pl hpl hmade hsel
    have hcalm : ¬ (w.thread t).frame.Calm kind := by
      intro hcalm
      rw [stakes, hcalm] at hmade
      exact hmade
    obtain ⟨handles, timeout, i, x, hf, hx, rfl⟩ := (Frame.calm_of_attempts hat).resolve_left hcalm
    -- The operation it accepts is the one that was selected.
    have hknows := hp.stepped.aware.knows t
    rw [hf] at hknows
    rw [stakes, hf] at hmade
    obtain ⟨j, y, -, hy, -, rfl⟩ := hmade
    cases hknows.symm.trans hsel
    obtain rfl := Option.some.inj (hx.symm.trans hy)
    exact hcalm (hz hpl)
  · intro c' d hside
    rcases hp.stepped.sound.holder hside with ⟨x, hf, -⟩ | ⟨k, hon, -⟩
    · exact Frame.not_chosen_of_attempts hat _ _ hf
    · rw [hrole c' k hon] at hside
      cases hside

/-- Who comes to a waiting operation is making an attempt. -/
theorem attempts_of_meets (hp : Page kind w w' t act th count D D' h ds ts) {p : Nat} {d : Side}
    {e : Entry Tid} {x y : Lib.Deal (Party Tid) T} (hm : Meets kind w t act th.frame D p c d e x y) :
    (w.thread t).frame.call.Attempts c ∧
      (w.thread t).frame.call.onBuffer kind (w.thread t).prog = none := by
  have hturn := hp.stepped.turn
  have hact := hm.act
  cases hturn with
  | next hn =>
    obtain ⟨spurious, rep, he, -⟩ := hn.exec
    subst hact
    refine ⟨?_, ?_⟩
    · rcases Shared.exec_explains he with ⟨hcall, -⟩ | ⟨offer, e, hpairs, -⟩
      · obtain ⟨job, out, hf, -⟩ := Frame.calls_of_eq hcall
        have hcomes := hm.comes
        rw [hf] at hcomes
        exact hcomes.elim
      · rcases hpairs with hcall | ⟨-, ⟨hcall, -⟩ | ⟨hcall, -⟩⟩
        · exact .inr (.inl ⟨_, _, hcall⟩)
        · exact .inl ⟨_, .inl hcall⟩
        · exact .inl ⟨_, .inr (.inl hcall)⟩
    · cases hon : (w.thread t).frame.call.onBuffer kind (w.thread t).prog with
      | none => rfl
      | some ck =>
        obtain ⟨a, hd⟩ := Shared.exec_onBuffer hon he
        obtain ⟨spurious', b, -, hno⟩ := hd.drive
        cases hno
  | start _ _ | complete _ _ | drop _ _ _ => cases hact

/-- Neither of the two who pair up has committed itself before. -/
theorem fresh_of_meets (hp : Page kind w w' t act th count D D' h ds ts) (hc : Chronicle kind w D h)
    (htr : Traded kind w h) (hcm : Committed kind w h) {p : Nat} {d : Side} {e : Entry Tid}
    {x y : Lib.Deal (Party Tid) T} (hm : Meets kind w t act th.frame D p c d e x y) :
    w.ident t ∉ h.flatMap Event.commits ∧ w.ident e.owner ∉ h.flatMap Event.commits := by
  obtain ⟨hat, hon⟩ := hp.attempts_of_meets hm
  refine ⟨hp.fresh_of_attempts hc htr hcm hat (fun c' k hk => ?_) fun _ => hm.comes.calm, ?_⟩
  · cases hon.symm.trans hk
  obtain ⟨-, -, -, hmem, -, hwait⟩ := hm.offers hp.accounts
  have busy : ¬ (w.thread e.owner).frame.Calm kind := by
    intro hcalm
    have hin := inside_of_listed hp.stepped.sound hmem
    rw [stakes, hcalm] at hin
    cases hin
  refine hc.uncommitted htr hcm ?_ (fun _ _ _ _ hf => busy hf.calm) (fun pl _ _ hsel => ?_)
    (fun c' d' hside => ?_) (fun job out hf => busy ?_) fun x i hf => busy ?_
  · cases hf : (w.thread e.owner).frame.ended with
    | false => rfl
    | true => exact absurd (Frame.over_calm hf) busy
  · cases hwait.symm.trans hsel
  · rcases hp.stepped.sound.holder hside with ⟨x, hf, -⟩ | ⟨k, hon, rfl | ⟨⟨msg, rfl, -⟩ | ⟨rfl, -⟩⟩⟩
    · exact busy (by rw [hf]; exact fun _ => rfl)
    · have htries := (Frame.tries_of_starts hon).1
      rcases Frame.calm_of_attempts (.inl htries) with hcalm | ⟨handles, timeout, i, x, hf, -⟩
      · exact busy hcalm
      · have hknows := hp.stepped.aware.knows e.owner
        rw [hf] at hknows
        cases hwait.symm.trans hknows
    · exact busy (by rw [(Frame.finish_of_onBuffer hon).1 msg rfl]; exact fun _ => rfl)
    · exact busy (by rw [(Frame.finish_of_onBuffer hon).2 rfl]; exact fun _ => rfl)
  · rw [hf]
    exact fun _ => rfl
  · rw [hf]
    exact fun _ => rfl

/-! ## The commitments of one turn -/

/-- The message of a timer that is received in a turn. -/
structure Firing (kind : Nat → Kind T) (w w' : World Tid T) (t : Tid) (ds : List (Event Tid T))
    (a : Ident Tid) (c : Nat) : Prop where
  ident : a = w.ident t
  ident' : w'.ident t = w.ident t
  attempts : (w.thread t).frame.call.Attempts c
  timer : ¬ (kind c).Buffered ∧ ¬ (kind c).IsZero
  onBuffer : (w.thread t).frame.call.onBuffer kind (w.thread t).prog = none
  leads : (∃ i, (w'.thread t).frame = .done (.okInstant i)) ∨
    ∃ x i, (w'.thread t).frame = .chosen x (.instant i) ∧ x.chan = c
  only : ds = [.fire a c]

/-- What the step that receives the message of a timer does. -/
theorem mem_deeds_fire (he : .fire a c ∈ w.deeds kind t act) : a = w.ident t ∧
    w.deeds kind t act = [.fire a c] ∧
      ((∃ duration, act = .takeTick c duration) ∨ act = .setReceived c ∧ w.shared.received c = false) := by
  cases act with
  | drive c' k' b r =>
    simp only [deeds, taken_eq, List.mem_append, List.mem_ite_nil_right, List.mem_singleton, reduceCtorEq,
      and_false, or_self] at he
  | offer _ _ _ | queue _ _ _ => cases List.mem_singleton.mp he
  | takeTick c' duration =>
    cases List.mem_singleton.mp he
    exact ⟨rfl, rfl, .inl ⟨duration, rfl⟩⟩
  | setReceived c' =>
    simp only [deeds] at he ⊢
    split at he
    · cases he
    · rename_i hr
      cases List.mem_singleton.mp he
      exact ⟨rfl, if_neg hr, .inr ⟨rfl, Bool.eq_false_of_not_eq_true hr⟩⟩
  | wakeOne c' d' =>
    simp only [deeds, paired] at he
    repeat' split at he
    all_goals cases he <;> contradiction
  | unregister _ _ _ =>
    simp only [deeds, dropped] at he
    repeat' split at he
    all_goals cases he <;> contradiction
  | _ =>
    simp only [deeds] at he
    split at he <;> cases he <;> contradiction

/-- Where the message of a timer leads. -/
theorem instant_leads {f g : Frame Tid T} {order : List Handle} {i : Nat} (htyped : f.Typed kind)
    (hat : f.call.Tries c ∨ ∃ deadline, f.call = .recvTimer c deadline)
    (htimer : ¬ (kind c).Buffered ∧ ¬ (kind c).IsZero)
    (hr : f.resume kind t order (.token (.instant i)) = some g) :
    g = .done (.okInstant i) ∨ ∃ x, g = .chosen x (.instant i) ∧ x.chan = c := by
  have chosen : ∀ {handles : List Handle} {j : Nat} {x : Handle}, handles[j]? = some x → c = x.chan →
      Frame.choose handles j (.instant i) = some g → ∃ x, g = .chosen x (.instant i) ∧ x.chan = c := by
    intro handles j x hx hc hg
    obtain ⟨y, hy, rfl⟩ := Option.map_eq_some_iff.mp hg
    obtain rfl := Option.some.inj (hx.symm.trans hy)
    exact ⟨x, rfl, hc.symm⟩
  rcases hat with ⟨d, hcall | hcall | hcall⟩ | ⟨deadline, hcall⟩
  · rcases Frame.calls_of_eq hcall with ⟨job, mode, n, rfl, rfl, -⟩ | ⟨rfl, -⟩ |
      ⟨handles, timeout, st, j, x, rfl, hx, hc, -, rfl | ⟨states, rfl⟩⟩
    · exact absurd htyped htimer.1
    · cases hr
      exact .inl rfl
    · exact .inr (chosen hx hc hr)
    · exact .inr (chosen hx hc hr)
  · obtain ⟨handles, timeout, j, x, rfl, hx, hc, -⟩ := Frame.calls_of_eq hcall
    exact .inr (chosen hx hc hr)
  · obtain ⟨handles, timeout, j, x, rfl, hx, hc, -⟩ := Frame.calls_of_eq hcall
    exact .inr (chosen hx hc hr)
  · obtain rfl := Frame.calls_of_eq hcall
    cases hr
    exact .inl rfl

theorem firing (hp : Page kind w w' t act th count D D' h ds ts) (he : .fire a c ∈ ds) :
    Firing kind w w' t ds a c := by
  have hturn := hp.stepped.turn
  have hafter := hp.stepped.after
  have hds := hp.written
  rw [hds] at he
  obtain ⟨ha, honly, hact⟩ := mem_deeds_fire he
  have hops : th.ops = (w.thread t).ops → w'.ident t = w.ident t := fun h => by rw [ident, hafter.ops, h]; rfl
  have hframe := hafter.frame
  cases hturn with
  | next hn =>
    obtain ⟨spurious, rep, hexec, -, hret⟩ := hn.exec
    have hoff : (w.thread t).frame.call.onBuffer kind (w.thread t).prog = none := by
      cases hon : (w.thread t).frame.call.onBuffer kind (w.thread t).prog with
      | none => rfl
      | some ck =>
        obtain ⟨a, hd⟩ := Shared.exec_onBuffer hon hexec
        obtain ⟨spurious', b, -, rfl⟩ := hd.drive
        rcases hact with ⟨duration, hno⟩ | ⟨hno, -⟩ <;> cases hno
    obtain ⟨hat, htimer, i, rfl⟩ : ((w.thread t).frame.call.Tries c ∨
        ∃ deadline, (w.thread t).frame.call = .recvTimer c deadline) ∧
        (¬ (kind c).Buffered ∧ ¬ (kind c).IsZero) ∧ ∃ i, rep = .ret (.token (.instant i)) := by
      rcases hact with ⟨duration, rfl⟩ | ⟨rfl, hreceived⟩
      · obtain ⟨hat, ⟨firstTick, hk⟩, -, hrep⟩ := Shared.exec_explains hexec
        exact ⟨hat, by rw [hk]; exact ⟨id, id⟩, _, hrep⟩
      · obtain ⟨hat, deliveryTime, hk, hrep, -⟩ := Shared.exec_explains hexec
        exact ⟨hat, by rw [hk]; exact ⟨id, id⟩, _, hrep hreceived⟩
    obtain ⟨-, order, hr⟩ := hret _ rfl
    refine ⟨ha, hops rfl, hat.imp_right .inr, htimer, hoff, ?_, hds.trans honly⟩
    rw [hframe]
    rcases instant_leads hp.stepped.typed hat htimer hr with hg | ⟨x, hg, hc⟩
    · exact .inl ⟨i, hg⟩
    · exact .inr ⟨x, i, hg, hc⟩
  | start _ _ | complete _ _ | drop _ _ _ => rcases hact with ⟨duration, hno⟩ | ⟨hno, -⟩ <;> cases hno

/-- Who commits itself in a turn. -/
theorem commits_cases (hp : Page kind w w' t act th count D D' h ds ts) :
    ds.flatMap Event.commits = [] ∨
      (∃ c d k, Taking kind w w' t ds (w.ident t) c d k) ∨ (∃ c, Firing kind w w' t ds (w.ident t) c) ∨
        ∃ p c d e x y, Meets kind w t act th.frame D p c d e x y ∧
          (ds.flatMap Event.commits).Perm [w.ident t, w.ident e.owner] := by
  have hnoted := hp.noted
  cases hnoted with
  | idle hes =>
    by_cases htake : ∃ e ∈ ds, e.commits ≠ []
    · obtain ⟨e, he, hne⟩ := htake
      refine .inr ?_
      cases hes e he with
      | looks p hf => exact absurd rfl hne
      | takes c d k => exact .inl ⟨c, d, k, hp.taking he⟩
      | fires c => exact .inr (.inl ⟨c, hp.firing he⟩)
    · exact .inl (List.flatMap_eq_nil_iff.mpr fun e he => by_contra fun hne => htake ⟨e, he, hne⟩)
  | enter _ | withdraw _ _ => exact .inl rfl
  | meet hm hc ha hb =>
    rename_i p c d e x y a b
    refine .inr (.inr (.inr ⟨p, c, d, e, x, y, hm, ?_⟩))
    obtain ⟨howner, hpartner⟩ := hm.parties
    obtain ⟨hthread, hop, -⟩ := hm.offers hp.accounts
    have hown : y.owner.ident = w.ident e.owner := by
      rw [howner, Party.ident, hthread, hop]
      rfl
    change List.Perm [a.ident, b.ident] _
    cases hg : y.gives with
    | true =>
      simp only [Lib.Deal.giver, Lib.Deal.taker, hg, if_true, hpartner, Option.some.injEq] at ha hb
      rw [← ha, ← hb, hown]
      exact .swap _ _ _
    | false =>
      simp only [Lib.Deal.giver, Lib.Deal.taker, hg, Bool.false_eq_true, if_false, hpartner,
        Option.some.injEq] at ha hb
      rw [← ha, ← hb, hown]
      exact .refl _
  | touch _ _ _ htouch _ _ _ =>
    refine .inl ?_
    rw [List.flatMap_singleton, Event.commits_of_touch htouch]

/-- **No operation commits itself a second time.** -/
theorem commits_once (hp : Page kind w w' t act th count D D' h ds ts) (hc : Chronicle kind w D h)
    (htr : Traded kind w h) (hcm : Committed kind w h) :
    ((h ++ (ds ++ ts)).flatMap Event.commits).Nodup := by
  have hts : ts.flatMap Event.commits = [] :=
    List.flatMap_eq_nil_iff.mpr fun e he => (hp.blank e he).commits
  rw [List.flatMap_append, List.flatMap_append, hts, List.append_nil]
  have fresh : ∀ {as : List (Ident Tid)}, (ds.flatMap Event.commits).Perm as → as.Nodup →
      (∀ a ∈ as, a ∉ h.flatMap Event.commits) → (h.flatMap Event.commits ++ ds.flatMap Event.commits).Nodup := by
    intro as hperm hn hfresh
    refine hcm.once.append (hperm.nodup_iff.mpr hn) fun a hold hnew => ?_
    exact hfresh a (hperm.mem_iff.mp hnew) hold
  have one : ∀ {a}, ds.flatMap Event.commits = [a] → a ∉ h.flatMap Event.commits →
      (h.flatMap Event.commits ++ ds.flatMap Event.commits).Nodup := by
    intro a heq ha
    refine fresh (heq ▸ .refl _) (List.nodup_singleton a) fun b hb => ?_
    rwa [List.mem_singleton.mp hb]
  rcases hp.commits_cases with hno | ⟨c, d, k, hk⟩ | ⟨c, hk⟩ | ⟨p, c, d, e, x, y, hm, hperm⟩
  · rw [hno, List.append_nil]
    exact hcm.once
  · have hcall := Frame.tries_of_starts hk.call
    refine one (by rw [hk.only]; rfl) (hp.fresh_of_attempts hc htr hcm (.inl hcall.1) (fun c' k' hon => ?_)
      fun hz => absurd hz hcall.2.not_zero)
    cases hk.call.symm.trans hon
    exact hk.before
  · refine one (by rw [hk.only]; rfl) (hp.fresh_of_attempts hc htr hcm hk.attempts (fun c' k' hon => ?_)
      fun hz => absurd hz hk.timer.2)
    cases hk.onBuffer.symm.trans hon
  · obtain ⟨ht, ho⟩ := hp.fresh_of_meets hc htr hcm hm
    obtain ⟨-, -, -, -, hne, -⟩ := hm.offers hp.accounts
    refine fresh hperm (List.nodup_cons.mpr ⟨?_, List.nodup_singleton _⟩) ?_
    · rw [List.mem_singleton]
      exact fun heq => hne (congrArg Ident.thread heq).symm
    · simp only [List.mem_cons, List.not_mem_nil, or_false]
      rintro a (rfl | rfl)
      · exact ht
      · exact ho

end Page

end World

end CrossbeamChannel
