import CrossbeamChannel.World.Commitments

/-!
# What a select commits itself to

Every turn keeps what the history says of the timers, the selects and the commitments:
`World.Page.committed`, so it holds in every run (`World.committed_of_reachable`). The handles of a
`run_select` are those it was called with, in some order (`shuffle` permutes them), and what is completed
afterwards is an operation on the one it has returned: `SelectedOperation` borrows that handle.

The case that needs care is a `run_select` that has been selected at a buffered channel, and calls
`accept` (`select.rs` 322-332): `accept` is `try` there (`array.rs` 600, `list.rs` 559), and may fail. The
wake-up is used up then, but nothing has been committed, and the loop starts again.
-/

namespace CrossbeamChannel

variable {Tid T : Type} [DecidableEq Tid]

namespace World

variable {kind : Nat → Kind T} {w w' : World Tid T} {t : Tid} {act : Act Tid T} {th : Thread Tid T}
  {count : Nat → Side → Nat} {D D' : Ledger Tid T} {h ds ts : List (Event Tid T)} {a : Ident Tid}
  {c : Nat}

namespace Page

/-! ## The timers -/

/-- What is said of the operations receives nothing. -/
theorem fire_mem (hp : Page kind w w' t act th count D D' h ds ts) :
    .fire a c ∈ h ++ (ds ++ ts) ↔ .fire a c ∈ h ∨ .fire a c ∈ ds := by
  rw [List.mem_append, List.mem_append]
  refine or_congr_right (or_iff_left fun he => ?_)
  cases hp.blank _ he

/-- An operation that has been chosen is completed, and nothing else. -/
theorem completes_chosen (hp : Page kind w w' t act th count D D' h ds ts) {x : Handle} {tk : Token}
    (hf : (w.thread t).frame = .chosen x tk) :
    ∃ msg, (w'.thread t).frame = .finishWith kind ⟨x.chan, msg⟩ tk ∧ w'.ident t = w.ident t ∧
      (w'.thread t).job = some ⟨x.chan, msg⟩ ∧ Job.side ⟨x.chan, msg⟩ = x.side := by
  have hturn := hp.stepped.turn
  have hafter := hp.stepped.after
  have hframe := hafter.frame
  have hjob := hafter.job
  have hops : w'.ident t = ⟨t, th.ops⟩ := by rw [ident, hafter.ops]
  cases hturn with
  | next hn => exact absurd (by rw [hf]; rfl) (call_of_next hn)
  | complete hf' hside =>
    cases hf.symm.trans hf'
    exact ⟨_, hframe, hops, hjob, hside⟩
  | start hover _ | drop hover _ _ =>
    rw [hf] at hover
    cases hover

theorem rings (hp : Page kind w w' t act th count D D' h ds ts) (hcm : Committed kind w h)
    (he : .fire a c ∈ h ++ (ds ++ ts)) : w'.Rings (h ++ (ds ++ ts)) a c := by
  have ends : ∀ {i}, a = w'.ident t → (w'.thread t).frame = .done (.okInstant i) →
      w'.Rings (h ++ (ds ++ ts)) a c := fun ha hf =>
    .returned (List.mem_append_right _ ((hp.tells.overs _ _).mpr ⟨ha, hf⟩))
  rcases hp.fire_mem.mp he with hold | hnew
  · cases hcm.rings a c hold with
    | chosen hop hf hchan =>
      obtain ⟨u, n⟩ := a
      by_cases hu : u = t
      · subst hu
        obtain ⟨msg, hf', hident, -⟩ := hp.completes_chosen hf
        obtain rfl : n = (w.thread u).ops := hop
        exact ends hident.symm hf'
      · have hothers := hp.stepped.after.others hu
        exact .chosen (by rw [hothers]; exact hop) (by rw [hothers]; exact hf) hchan
    | returned hover => exact .returned (List.mem_append_left _ hover)
  · have hk := hp.firing hnew
    have ha := hk.ident.trans hk.ident'.symm
    rcases hk.leads with ⟨i, hf⟩ | ⟨x, i, hf, hchan⟩
    · exact ends ha hf
    · subst ha
      exact .chosen rfl hf hchan

/-- What `run_select` has returned it has returned in this turn, if it is new. -/
theorem chosen_cases (hp : Page kind w w' t act th count D D' h ds ts) {x : Handle} {tk : Token}
    (hf : (w'.thread t).frame = .chosen x tk) :
    ∃ handles timeout st r spurious, (w.thread t).frame = .select handles timeout st ∧ x ∈ handles ∧
      w.shared.exec t kind (w.thread t).frame.call (w.thread t).prog spurious = some (act, .ret r) ∧
      Frame.SelectLeads handles st r (.chosen x tk : Frame Tid T) ∧ w'.ident t = w.ident t := by
  have hturn := hp.stepped.turn
  have hafter := hp.stepped.after
  rw [hafter.frame] at hf
  have hops : w'.ident t = ⟨t, th.ops⟩ := by rw [ident, hafter.ops]
  cases hturn with
  | next hn =>
    dsimp only at hf
    subst hf
    have hcall := call_of_next hn
    obtain ⟨spurious, rep, he, hmore, hret⟩ := hn.exec
    generalize hfr : (w.thread t).frame = f at hcall hmore hret
    cases rep with
    | more pr => exact absurd (by rw [← (hmore pr rfl).1]; rfl) hcall
    | ret r =>
      obtain ⟨-, order, hr⟩ := hret r rfl
      cases Frame.resume_stays hr with
      | same => exact absurd rfl hcall
      | chosen hx => exact ⟨_, _, _, r, spurious, rfl, hx, hfr ▸ he, Frame.select_leads hr, hops⟩
  | start _ _ =>
    unfold Op.frame Frame.nowStart Frame.loopStart at hf
    repeat' split at hf
    all_goals cases hf
  | complete _ _ => exact absurd hf (Frame.finishWith_apart.2 _ _)
  | drop _ _ _ =>
    simp only [lastDropped] at hf
    repeat' split at hf
    all_goals cases hf

/-- A select goes on with the handles it has, or it has just begun. -/
theorem select_cases (hp : Page kind w w' t act th count D D' h ds ts) {handles : List Handle}
    {timeout : Timeout} {st : SelectStage Tid} (hf : (w'.thread t).frame = .select handles timeout st) :
    ((w.thread t).frame.call ≠ .none ∧ w'.ident t = w.ident t ∧ ∃ handles₀ timeout₀ st₀,
        (w.thread t).frame = .select handles₀ timeout₀ st₀ ∧ handles.Perm handles₀) ∨
      ((w.thread t).frame.call = .none ∧ w'.ident t = ⟨t, (w.thread t).ops + 1⟩ ∧ (w'.thread t).job = none) := by
  have hturn := hp.stepped.turn
  have hafter := hp.stepped.after
  have hjob := hafter.job
  rw [hafter.frame] at hf
  have hops : w'.ident t = ⟨t, th.ops⟩ := by rw [ident, hafter.ops]
  cases hturn with
  | next hn =>
    have hstays := hn.stays
    dsimp only at hf
    subst hf
    refine .inl ⟨call_of_next hn, hops, ?_⟩
    generalize (w.thread t).frame = f at hstays
    cases hstays with
    | same => exact ⟨_, _, _, rfl, .refl _⟩
    | select hperm => exact ⟨_, _, _, rfl, hperm⟩
  | @start op hover huses =>
    refine .inr ⟨call_of_ended hover, hops, hjob.trans ?_⟩
    have hserves : (op.frame kind : Frame Tid T).Serves op.job := Frame.opFrame_serves op
    rw [show op.frame kind = _ from hf] at hserves
    exact hserves
  | complete _ _ => exact absurd hf (Frame.finishWith_apart.1 _ _ _)
  | drop _ _ _ =>
    simp only [lastDropped] at hf
    repeat' split at hf
    all_goals cases hf

/-- Who gets the message of a timer fires. -/
theorem fire_of_instant {spurious : Bool} {i : Nat}
    (he : w.shared.exec t kind (w.thread t).frame.call (w.thread t).prog spurious =
      some (act, .ret (.token (.instant i)))) :
    ∃ c, (w.thread t).frame.call.source = some c ∧ .fire (w.ident t) c ∈ w.deeds kind t act := by
  obtain ⟨c, hsource, hreceives⟩ := Shared.exec_instant he
  refine ⟨c, hsource, ?_⟩
  rcases hreceives with ⟨firstTick, duration, -, rfl, -, -⟩ | ⟨-, -, rfl, hr⟩
  · exact List.mem_singleton_self _
  · simp only [deeds, hr, Bool.false_eq_true, if_false, List.mem_singleton]

theorem rung (hp : Page kind w w' t act th count D D' h ds ts) (hcm : Committed kind w h) {u : Tid}
    {x : Handle} {i : Nat} (hf : (w'.thread u).frame = .chosen x (.instant i)) :
    .fire (w'.ident u) x.chan ∈ h ++ (ds ++ ts) := by
  by_cases hu : u = t
  · subst hu
    obtain ⟨handles, timeout, st, r, spurious, hfr, -, he, hleads, hident⟩ := hp.chosen_cases hf
    cases hleads with
    | fires hx hr hst =>
      subst hr
      obtain ⟨c, hsource, hmem⟩ := fire_of_instant he
      rw [hident, hp.fire_mem]
      refine .inr ?_
      rw [hp.written]
      convert hmem
      rw [hfr] at hsource
      rcases hst with rfl | rfl | ⟨states, rfl⟩ | rfl | rfl <;>
        simp only [Frame.call, Frame.selectCall, Frame.onHandle, hx, Call.source, Option.some.injEq,
          reduceCtorEq] at hsource <;> exact hsource
  · have hothers := hp.stepped.after.others hu
    rw [hothers] at hf
    rw [ident, hothers]
    exact List.mem_append_left _ (hcm.rung u x i hf)

theorem fire_sides (hp : Page kind w w' t act th count D D' h ds ts) (hcm : Committed kind w h) {j : Job T}
    (he : .fire a c ∈ h ++ (ds ++ ts)) (hask : .ask a j ∈ h ++ (ds ++ ts)) : j.chan = c := by
  rcases hp.fire_mem.mp he with hold | hnew
  · rcases hp.ask_old hask with hask | rfl | ⟨rfl, x, tk, hf, hchan, -⟩
    · exact hcm.sides a c j hold hask
    · -- Nothing has been received by an operation that is yet to begin.
      cases hcm.rings _ _ hold with
      | chosen hop _ _ => exact absurd hop (Nat.succ_ne_self _)
      | returned hover => exact absurd (hp.attested.overs _ _ hover).1 (Nat.not_succ_le_self _)
    · cases hcm.rings _ _ hold with
      | chosen hop hf' hchan' =>
        obtain ⟨rfl, -⟩ := Frame.chosen.inj (hf.symm.trans hf')
        exact hchan.trans hchan'
      | returned hover => cases hf.symm.trans ((hp.attested.overs _ _ hover).2 rfl)
  · have hk := hp.firing hnew
    rcases hp.ask_old hask with hask | ha | ⟨-, x, tk, hf, -⟩
    · -- Who has been asked for a receive from a timer is in it.
      have hserves := hp.serves t
      rw [hk.ident] at hask
      rw [show (w.thread t).job = some j from (hp.attested.asks _ _ hask).2 rfl] at hserves
      rcases hk.attempts with ⟨d, hcall | hcall | hcall⟩ | ⟨d, offer, hcall⟩ | ⟨deadline, hcall⟩
      · rcases Frame.calls_of_eq hcall with ⟨job, mode, n, hf, rfl, -⟩ | ⟨hf, -⟩ |
          ⟨handles, timeout, st, i, x, hf, -⟩ <;> rw [hf] at hserves
        · rw [Option.some.inj hserves]
        · exact Option.some.inj hserves
        · cases hserves
      · obtain ⟨handles, timeout, i, x, hf, -⟩ := Frame.calls_of_eq hcall
        rw [hf] at hserves
        cases hserves
      · obtain ⟨handles, timeout, i, x, hf, -⟩ := Frame.calls_of_eq hcall
        rw [hf] at hserves
        cases hserves
      · obtain ⟨job, mode, hf, rfl, -⟩ := Frame.calls_of_eq hcall
        rw [hf] at hserves
        rw [Option.some.inj hserves]
      · rw [Frame.calls_of_eq hcall] at hserves
        exact Option.some.inj hserves
    · rw [hk.ident] at ha
      exact absurd (Ident.mk.inj ha).2.symm (Nat.succ_ne_self _)
    · exact absurd hf (Frame.not_chosen_of_attempts hk.attempts _ _)

/-- How a receive from a timer ends in this turn. -/
theorem timer_ends (hp : Page kind w w' t act th count D D' h ds ts) (hcm : Committed kind w h)
    {out : Outcome T} {j : Job T} (hb : ¬ (kind j.chan).Buffered) (hz : ¬ (kind j.chan).IsZero)
    (hf : (w'.thread t).frame = .done out) (hj : (w'.thread t).job = some j) :
    (∃ i, out = .okInstant i ∧ .fire (w'.ident t) j.chan ∈ h ++ (ds ++ ts)) ∨ out.Refuses none := by
  have hturn := hp.stepped.turn
  have hafter := hp.stepped.after
  have htyped := hp.stepped.typed
  have hserves := hp.serves t
  rw [hafter.frame] at hf
  rw [hafter.job] at hj
  have hops : w'.ident t = ⟨t, th.ops⟩ := by rw [ident, hafter.ops]
  cases hturn with
  | next hn =>
    dsimp only at hf hj
    subst hf
    rw [hj] at hserves
    cases hfr : (w.thread t).frame with
    | timer c mode =>
      rw [hfr] at hserves
      obtain rfl : j.chan = c := Option.some.inj hserves
      obtain ⟨spurious, rep, he, hmore, hret⟩ := hn.exec
      rw [hfr] at hmore hret
      cases rep with
      | more pr => cases (hmore pr rfl).1
      | ret r =>
        obtain ⟨-, order, hr⟩ := hret r rfl
        simp only [Frame.resume, Frame.timerResume] at hr
        split at hr
        -- The call has returned a message, so it has taken it in this step.
        · cases hr
          obtain ⟨c, hsource, hmem⟩ := fire_of_instant he
          obtain rfl : j.chan = c := by
            rw [hfr] at hsource
            cases mode <;> exact Option.some.inj hsource
          refine .inl ⟨_, rfl, hp.fire_mem.mpr (.inr ?_)⟩
          rw [hp.written, hops]
          exact hmem
        · split at hr <;> cases hr
          · exact .inr .unavailable
          · exact .inr .timeout
        · cases hr
    | plain job mode st =>
      rw [hfr] at hserves htyped
      cases hserves
      exact absurd htyped hb
    | zero job mode st =>
      rw [hfr] at hserves htyped
      cases hserves
      exact absurd htyped hz
    | finish job st =>
      rw [hfr] at hserves htyped
      cases hserves
      cases st <;> first | exact absurd htyped hb | exact absurd htyped hz
    | select _ _ _ | chosen _ _ | close _ _ _ =>
      rw [hfr] at hserves
      cases hserves
    | done _ | panicked => exact absurd hn (not_next_of_ended (by rw [hfr]; rfl))
  | @start op hover huses =>
    cases op with
    | select handles timeout => cases hj
    | plain job mode =>
      dsimp only [Op.frame] at hf
      split at hf <;> cases hf
  | @complete x tk msg hf' hside =>
    rw [hf'] at htyped
    cases hj
    cases tk with
    | instant i =>
      obtain rfl : .okInstant i = out := Frame.done.inj hf
      refine .inl ⟨i, rfl, List.mem_append_left _ ?_⟩
      rw [hops]
      exact hcm.rung t x i hf'
    | slot => exact absurd htyped hb
    | null =>
      rcases htyped with htyped | htyped
      · exact absurd htyped hb
      · exact absurd htyped hz
    | packet p => exact absurd htyped hz
  | drop _ _ _ => cases hj

theorem ends_timer (hp : Page kind w w' t act th count D D' h ds ts) (hcm : Committed kind w h)
    {out : Outcome T} {j : Job T} (hb : ¬ (kind j.chan).Buffered) (hz : ¬ (kind j.chan).IsZero)
    (hask : .ask a j ∈ h ++ (ds ++ ts)) (hover : .over a out ∈ h ++ (ds ++ ts)) :
    (∃ i, out = .okInstant i ∧ .fire a j.chan ∈ h ++ (ds ++ ts)) ∨ out.Refuses none := by
  rcases List.mem_append.mp hover with hold | hnew
  · obtain ⟨hle, hnow⟩ := hp.attested.overs a out hold
    rcases hp.ask_old hask with hask | rfl | ⟨rfl, x, tk, hf, -⟩
    · refine (hcm.ends a out j hb hz hask hold).imp_left ?_
      rintro ⟨i, rfl, he⟩
      exact ⟨i, rfl, List.mem_append_left _ he⟩
    · exact absurd hle (Nat.not_succ_le_self _)
    · cases hf.symm.trans (hnow rfl)
  · obtain ⟨rfl, hf⟩ := (hp.tells.overs a out).mp hnew
    exact hp.timer_ends hcm hb hz hf ((hp.attested'.asks _ _ hask).2 rfl)

/-- An operation that returns with anything else was asked for something. -/
theorem unasked (hp : Page kind w w' t act th count D D' h ds ts) (hcm : Committed kind w h)
    {out : Outcome T} (hover : .over a out ∈ h ++ (ds ++ ts)) :
    (∃ j, .ask a j ∈ h ++ (ds ++ ts)) ∨ out = .notReady ∨ out = .dropped := by
  rcases List.mem_append.mp hover with hold | hnew
  · exact (hcm.unasked a out hold).imp_left fun ⟨j, hj⟩ => ⟨j, List.mem_append_left _ hj⟩
  · obtain ⟨rfl, hf⟩ := (hp.tells.overs a out).mp hnew
    cases hjob : (w'.thread t).job with
    | some j => exact .inl ⟨j, hp.attested'.asked t j hjob⟩
    | none =>
      refine .inr ?_
      have hturn := hp.stepped.turn
      have hafter := hp.stepped.after
      have hserves := hp.serves t
      rw [hafter.frame] at hf
      rw [hafter.job] at hjob
      cases hturn with
      | next hn =>
        dsimp only at hf hjob
        subst hf
        rw [hjob] at hserves
        obtain ⟨spurious, rep, he, hmore, hret⟩ := hn.exec
        cases rep with
        | more pr => exact absurd hn (not_next_of_ended (by rw [← (hmore pr rfl).1]; rfl))
        | ret r =>
          obtain ⟨-, order, hr⟩ := hret r rfl
          cases hfr : (w.thread t).frame with
          | select handles timeout st =>
            rw [hfr] at hr
            cases Frame.select_leads hr with
            | gives_up => exact .inl rfl
          | close c d st =>
            rw [hfr] at hr
            simp only [Frame.resume, Frame.closeResume] at hr
            repeat' split at hr
            all_goals cases hr
            all_goals exact .inr rfl
          | chosen _ _ =>
            rw [hfr] at hr
            cases hr
          | plain _ _ _ | zero _ _ _ | timer _ _ | finish _ _ =>
            rw [hfr] at hserves
            cases hserves
          | done _ | panicked => exact absurd hn (not_next_of_ended (by rw [hfr]; rfl))
      | @start op hover huses =>
        unfold Op.frame Frame.nowStart Frame.loopStart at hf
        repeat' split at hf
        all_goals cases hf
        all_goals exact .inl rfl
      | complete _ _ => cases hjob
      | drop _ _ _ =>
        simp only [lastDropped] at hf
        repeat' split at hf
        all_goals cases hf
        all_goals exact .inr rfl

/-! ## The handles of a select -/

/-- A select is written down when it begins. -/
theorem among_cases (hp : Page kind w w' t act th count D D' h ds ts) {handles : List Handle}
    (he : .among a handles ∈ h ++ (ds ++ ts)) : .among a handles ∈ h ∨
      .among a handles ∈ ds ++ ts ∧ a = w'.ident t ∧ a = ⟨t, (w.thread t).ops + 1⟩ ∧
        (w'.thread t).job = none ∧ ∃ timeout st, (w'.thread t).frame = .select handles timeout st := by
  rcases List.mem_append.mp he with hold | hnew
  · exact .inl hold
  · obtain ⟨rfl, hcall, timeout, st, hf⟩ := hp.tells.picks a handles hnew
    rcases hp.select_cases hf with ⟨hno, -⟩ | ⟨-, hident, hjob⟩
    · exact absurd hcall hno
    · exact .inr ⟨hnew, rfl, hident, hjob, timeout, st, hf⟩

theorem begun (hp : Page kind w w' t act th count D D' h ds ts) (hcm : Committed kind w h)
    {handles : List Handle} (he : .among a handles ∈ h ++ (ds ++ ts)) :
    a.op ≤ (w'.thread a.thread).ops := by
  rcases hp.among_cases he with hold | ⟨-, rfl, -⟩
  · exact Nat.le_trans (hcm.begun a handles hold) (hp.stepped.after.ops_le hp.stepped.turn _)
  · exact Nat.le_refl _

theorem sole (hp : Page kind w w' t act th count D D' h ds ts) (hcm : Committed kind w h)
    {handles handles' : List Handle} (he : .among a handles ∈ h ++ (ds ++ ts))
    (he' : .among a handles' ∈ h ++ (ds ++ ts)) : handles = handles' := by
  -- What has been written down before is not begun now.
  have apart : ∀ {hs}, .among a hs ∈ h → a ≠ ⟨t, (w.thread t).ops + 1⟩ := by
    rintro hs hold rfl
    exact absurd (hcm.begun _ _ hold) (Nat.not_succ_le_self _)
  rcases hp.among_cases he with hold | ⟨-, -, ha, -, timeout, st, hf⟩ <;>
    rcases hp.among_cases he' with hold' | ⟨-, -, ha', -, timeout', st', hf'⟩
  · exact hcm.sole a _ _ hold hold'
  · exact absurd ha' (apart hold)
  · exact absurd ha (apart hold')
  · exact (Frame.select.inj (hf.symm.trans hf')).1

theorem pool (hp : Page kind w w' t act th count D D' h ds ts) (hcm : Committed kind w h) {u : Tid}
    {handles : List Handle} {timeout : Timeout} {st : SelectStage Tid}
    (hf : (w'.thread u).frame = .select handles timeout st) :
    ∃ handles', .among (w'.ident u) handles' ∈ h ++ (ds ++ ts) ∧ handles.Perm handles' := by
  by_cases hu : u = t
  · subst hu
    rcases hp.select_cases hf with ⟨-, hident, handles₀, timeout₀, st₀, hfr, hperm⟩ | ⟨hcall, hident, hjob⟩
    · obtain ⟨handles', he, hperm'⟩ := hcm.pool u handles₀ timeout₀ st₀ hfr
      exact ⟨handles', by rw [hident]; exact List.mem_append_left _ he, hperm.trans hperm'⟩
    · exact ⟨handles, List.mem_append_right _ (hp.tells.picked handles timeout st hf hjob hcall), .refl _⟩
  · have hothers := hp.stepped.after.others hu
    rw [hothers] at hf
    obtain ⟨handles', he, hperm⟩ := hcm.pool u handles timeout st hf
    exact ⟨handles', by rw [ident, hothers]; exact List.mem_append_left _ he, hperm⟩

theorem picked (hp : Page kind w w' t act th count D D' h ds ts) (hcm : Committed kind w h) {u : Tid}
    {x : Handle} {tk : Token} (hf : (w'.thread u).frame = .chosen x tk) :
    ∃ handles, .among (w'.ident u) handles ∈ h ++ (ds ++ ts) ∧ x ∈ handles := by
  by_cases hu : u = t
  · subst hu
    obtain ⟨handles, timeout, st, r, spurious, hfr, hx, -, -, hident⟩ := hp.chosen_cases hf
    obtain ⟨handles', he, hperm⟩ := hcm.pool u handles timeout st hfr
    exact ⟨handles', by rw [hident]; exact List.mem_append_left _ he, hperm.mem_iff.mp hx⟩
  · have hothers := hp.stepped.after.others hu
    rw [hothers] at hf
    obtain ⟨handles, he, hx⟩ := hcm.picked u x tk hf
    exact ⟨handles, by rw [ident, hothers]; exact List.mem_append_left _ he, hx⟩

theorem drawn (hp : Page kind w w' t act th count D D' h ds ts) (hcm : Committed kind w h)
    {handles : List Handle} {j : Job T} (he : .among a handles ∈ h ++ (ds ++ ts))
    (hask : .ask a j ∈ h ++ (ds ++ ts)) : ∃ x ∈ handles, x.chan = j.chan ∧ x.side = j.side := by
  rcases hp.among_cases he with hold | ⟨-, rfl, -, hjob, -⟩
  · rcases hp.ask_old hask with hask | rfl | ⟨rfl, x, tk, hf, hchan, hside⟩
    · exact hcm.drawn a handles j hold hask
    · exact absurd (hcm.begun _ _ hold) (Nat.not_succ_le_self _)
    · obtain ⟨handles', he', hx⟩ := hcm.picked t x tk hf
      rw [hcm.sole _ _ _ hold he']
      exact ⟨x, hx, hchan.symm, hside.symm⟩
  · cases hjob.symm.trans ((hp.attested'.asks _ _ hask).2 rfl)

/-- **Every turn keeps what the history says of the commitments.** -/
theorem committed (hp : Page kind w w' t act th count D D' h ds ts) (hc : Chronicle kind w D h)
    (htr : Traded kind w h) (hcm : Committed kind w h) : Committed kind w' (h ++ (ds ++ ts)) where
  once := hp.commits_once hc htr hcm
  timer := by
    intro a c he
    rcases hp.fire_mem.mp he with hold | hnew
    · exact hcm.timer a c hold
    · exact (hp.firing hnew).timer
  rings := fun _ _ he => hp.rings hcm he
  rung := fun _ _ _ hf => hp.rung hcm hf
  sides := fun _ _ _ he hask => hp.fire_sides hcm he hask
  ends := fun _ _ _ hb hz hask hover => hp.ends_timer hcm hb hz hask hover
  unasked := fun _ _ hover => hp.unasked hcm hover
  begun := fun _ _ he => hp.begun hcm he
  sole := fun _ _ _ he he' => hp.sole hcm he he'
  pool := fun _ _ _ _ hf => hp.pool hcm hf
  picked := fun _ _ _ hf => hp.picked hcm hf
  drawn := fun _ _ _ he hask => hp.drawn hcm he hask

end Page

omit [DecidableEq Tid] in
/-- Handles and time are of no account. -/
theorem Committed.congr (hcm : Committed kind w h) (hthread : w'.thread = w.thread) :
    Committed kind w' h where
  once := hcm.once
  timer := hcm.timer
  rings := by
    intro a c he
    cases hcm.rings a c he with
    | chosen hop hf hchan => exact .chosen (by rwa [hthread]) (by rwa [hthread]) hchan
    | returned hover => exact .returned hover
  rung := by
    simp only [ident, hthread]
    exact hcm.rung
  sides := hcm.sides
  ends := hcm.ends
  unasked := hcm.unasked
  begun := by
    rw [hthread]
    exact hcm.begun
  sole := hcm.sole
  pool := by
    simp only [ident, hthread]
    exact hcm.pool
  picked := by
    simp only [ident, hthread]
    exact hcm.picked
  drawn := hcm.drawn

omit [DecidableEq Tid] in
theorem Committed.init : Committed kind (World.init kind : World Tid T) [] := by
  constructor <;> first | exact List.nodup_nil | (intros; contradiction)

theorem committed_of_reachable {x : World Tid T × List (List (Event Tid T))}
    (hr : (history kind).Reachable x) : Committed kind x.1 x.2.flatten := by
  refine hr.invariant (P := fun x => Committed kind x.1 x.2.flatten) ?_ fun x l y hx hcm hs => ?_
  · rintro ⟨_, _⟩ ⟨rfl, rfl⟩
    exact Committed.init
  · rw [flatten_of_step hs]
    obtain ⟨D, hc⟩ := chronicle_of_reachable hx
    rcases hc.page hx.forget hs.1 with ⟨t, act, th, count, D', ds, ts, hp, hes⟩ | ⟨hno, hw⟩
    · rw [hes]
      exact hp.committed hc (traded_of_reachable hx) hcm
    · rw [hno, List.append_nil]
      rcases hw with ⟨c, d, hw⟩ | ⟨now, hw⟩
      · exact hcm.congr (by rw [hw]; rfl)
      · exact hcm.congr (by rw [hw])

end World

end CrossbeamChannel
