import CrossbeamChannel.World.Records

/-!
# The ledger and the history agree

Who is party to a deal runs until it returns, and returns with what the deal has come to. Who is party
to none returns with what it was asked to send. `World.Honoured` says so, and every turn keeps it:
`World.Page.honoured`. So there is a ledger for every history: `World.chronicle_of_reachable`.

A `Page` is one turn with the ledger, the engagements and the history before and after it. `Honoured` is
proved of all of them at once, since each clause needs the others at the turn in which an operation
returns: that a send returns `Ok` because it was in a deal (`zero.rs` 314 and 348), and gives its
message back because it was in none (`zero.rs` 337 and 342).
-/

namespace CrossbeamChannel

variable {Tid T : Type} [DecidableEq Tid]

/-- The operation comes to nothing, and gives this back. -/
inductive Outcome.Refuses (msg : Option T) : Outcome T → Prop where
  | unavailable : Refuses msg (.unavailable msg)
  | timeout : Refuses msg (.timeout msg)
  | disconnected : Refuses msg (.disconnected msg)

/-- The operation is party to no deal that has been made. -/
def Ledger.Unmet (D : Ledger Tid T) (a : Ident Tid) : Prop :=
  ∀ p x q, D p = some x → x.partner ≠ none → x.Between q → q.ident ≠ a

namespace World

/-- **The deals and the history agree.** -/
structure Honoured (kind : Nat → Kind T) (w : World Tid T) (D : Ledger Tid T)
    (h : List (Event Tid T)) : Prop where
  /-- Who is party to a deal runs until it returns. -/
  settled : ∀ p x q, D p = some x → x.Between q → w.Running q.ident ∨ ∃ out, .over q.ident out ∈ h
  /-- The message is the one its giver was asked to send. -/
  origin : ∀ p x m, D p = some x → x.msg = some m →
    ∃ q, x.giver = some q ∧ .ask q.ident ⟨x.owner.place.chan, some m⟩ ∈ h
  roles : ∀ p x q j, D p = some x → x.partner ≠ none → x.Between q → .ask q.ident j ∈ h →
    j.chan = q.place.chan ∧ j.side = q.place.side
  /-- Who is party to a deal that has been made returns successfully. -/
  ends : ∀ p x q out, D p = some x → x.partner ≠ none → x.Between q → .over q.ident out ∈ h →
    out = Frame.handed x.msg q.place.side
  /-- Who is not comes to nothing. -/
  fails : ∀ a out j, (kind j.chan).IsZero → .ask a j ∈ h → .over a out ∈ h →
    D.Unmet a → out.Refuses j.msg
  touched : ∀ e ∈ h, ∀ a p, e.touch = some (a, p) → ∃ x, D p = some x
  /-- Nobody works on a packet after it has been freed, or after its stack frame is gone. -/
  order : h.Pairwise fun e e' => ∀ a p, e'.touch = some (a, p) →
    (∀ b, e ≠ .free b p) ∧ ∀ x out, D p = some x → x.kept = true → e ≠ .over x.owner.ident out

variable {kind : Nat → Kind T} {w w' : World Tid T} {t : Tid} {act : Act Tid T} {th : Thread Tid T}
  {count : Nat → Side → Nat} {D D' : Ledger Tid T} {g : Frame Tid T} {h es ds ts : List (Event Tid T)}

/-- A turn, with all that is known of the state before it, and what is written down of it: what is
    done about the deals, and what is said of the operations. -/
structure Page (kind : Nat → Kind T) (w w' : World Tid T) (t : Tid) (act : Act Tid T)
    (th : Thread Tid T) (count : Nat → Side → Nat) (D D' : Ledger Tid T)
    (h ds ts : List (Event Tid T)) : Prop where
  stepped : Stepped kind w w' t act th count
  accounts : Accounts kind w D
  accounts' : Accounts kind w' D'
  engagements : Engagements kind w D
  deed : Deed kind w t act th.frame D D'
  serves : ∀ u, (w.thread u).frame.Serves (w.thread u).job
  typed' : ∀ u, (w'.thread u).frame.Typed kind
  safe : (w'.thread t).frame ≠ .panicked
  recorded : D.Recorded h
  attested : Attested w h
  noted : Noted kind w t act th.frame D D' ds
  written : ds = w.deeds kind t act
  tells : Tells w w' t (ds ++ ts)
  blank : ∀ e ∈ ts, e.Said
  /-- Only who runs does something. -/
  running : ds ≠ [] → w.Running (w.ident t)

omit [DecidableEq Tid] in
theorem role_of_carries {f : Frame Tid T} {p c : Nat} {d : Side} {msg : Option T} {j : Job T}
    (hf : f.Carries p c d msg) (hj : f.Serves (some j)) : j.chan = c ∧ j.side = d := by
  unfold Frame.Carries at hf
  split at hf
  all_goals first | exact hf.elim | cases hj
  · exact hf.2
  · exact hf.2
  · exact ⟨hf.2.1, hf.2.2.1⟩
  · exact ⟨hf.2.1, hf.2.2.1⟩
  · exact ⟨hf.2.1, hf.2.2.1⟩
  · exact ⟨hf.2.1, hf.2.2.1⟩
  · exact ⟨hf.2.1, hf.2.2.1⟩
  · exact ⟨hf.2.1, hf.2.2.1⟩

omit [DecidableEq Tid] in
theorem role_of_made {f : Frame Tid T} {pr : Prog} {pl : Place} {j : Job T}
    (hmade : (f.stake kind pr).made pl) (hj : f.Serves (some j)) (htyped : f.Typed kind)
    (hz : (kind pl.chan).IsZero) : j.chan = pl.chan ∧ j.side = pl.side := by
  cases f with
  | select handles timeout st => cases hj
  | zero job mode st =>
    cases hj
    have hplace : pl = ⟨j.chan, j.side, 0⟩ := by
      cases st <;> first | exact hmade | exact hmade.elim
    rw [hplace]
    exact ⟨rfl, rfl⟩
  | plain job mode st =>
    have halone : Frame.Alone kind job.chan job.side pl := by
      cases st <;> first | exact hmade | exact hmade.2 | exact hmade.elim
    rw [halone.2] at hz
    exact absurd hz htyped.not_zero
  | _ => exact hmade.elim

omit [DecidableEq Tid] in
/-- Both parties are at the channel of the owner. -/
theorem Engagements.chan (h : Engagements kind w D) {p : Nat} {x : Lib.Deal (Party Tid) T}
    {q : Party Tid} (hdeal : D p = some x) (hq : x.Between q) : q.place.chan = x.owner.place.chan := by
  rcases hq with rfl | hq
  · rfl
  · rw [(h.partner p x q hdeal hq).2]

omit [DecidableEq Tid] in
theorem Engaged.op_le {p : Nat} {x : Lib.Deal (Party Tid) T} {q : Party Tid}
    (he : Engaged kind w p x q) : q.op ≤ (w.thread q.thread).ops := by
  cases he with
  | summoned _ hop _ _ _ | carries hop _ | done hop _ _ => exact Nat.le_of_eq hop
  | gone hop _ => exact Nat.le_of_lt hop

omit [DecidableEq Tid] in
/-- Who has returned has done its part. -/
theorem Engaged.running_or {p : Nat} {x : Lib.Deal (Party Tid) T} {q : Party Tid}
    (he : Engaged kind w p x q) : w.Running q.ident ∨ x.Quits q := by
  cases he with
  | summoned howner hop hmade hsel hpacket =>
    refine .inl ⟨hop.symm, ?_⟩
    cases hf : (w.thread q.thread).frame.ended with
    | false => exact hf
    | true =>
      rw [stakes, Frame.over_calm hf] at hmade
      exact hmade.elim
  | carries hop hf => exact .inl ⟨hop.symm, hf.not_ended⟩
  | done _ _ hquit | gone _ hquit => exact .inr hquit

omit [DecidableEq Tid] in
/-- Who is on its way in a deal has been asked for nothing else. -/
theorem Engaged.role {p : Nat} {x : Lib.Deal (Party Tid) T} {q : Party Tid} {j : Job T}
    (he : Engaged kind w p x q) (hz : (kind q.place.chan).IsZero) (hrun : w.Running q.ident)
    (hserves : (w.thread q.thread).frame.Serves (some j)) (htyped : (w.thread q.thread).frame.Typed kind) :
    j.chan = q.place.chan ∧ j.side = q.place.side := by
  cases he with
  | summoned _ _ hmade _ _ => exact role_of_made hmade hserves htyped hz
  | carries _ hf => exact role_of_carries hf hserves
  | done _ hf _ =>
    have hno := hrun.2
    rw [Party.ident, hf] at hno
    cases hno
  | gone hop _ => exact absurd hrun.1.symm (Nat.ne_of_lt hop)

namespace Page

variable {p : Nat} {x y : Lib.Deal (Party Tid) T} {q : Party Tid} {a : Ident Tid}

theorem engagements' (hp : Page kind w w' t act th count D D' h ds ts) : Engagements kind w' D' :=
  hp.engagements.after hp.accounts hp.accounts' hp.stepped hp.deed

theorem attested' (hp : Page kind w w' t act th count D D' h ds ts) :
    Attested w' (h ++ (ds ++ ts)) :=
  hp.attested.after hp.stepped.turn hp.stepped.after (hp.serves t) hp.tells

theorem sane (hp : Page kind w w' t act th count D D' h ds ts) : ∀ p x, D p = some x → x.Sane :=
  hp.engagements.sane

theorem goes_on (hp : Page kind w w' t act th count D D' h ds ts) (hr : w.Running a) :
    w'.Running a ∨ ∃ out, .over a out ∈ h ++ (ds ++ ts) := by
  rcases hr.after hp.stepped.turn hp.stepped.after hp.safe hp.tells with hr | ⟨out, hout⟩
  · exact .inl hr
  · exact .inr ⟨out, List.mem_append_right _ hout⟩

/-- Who is in a deal was in it before, or is running. -/
theorem joined (hp : Page kind w w' t act th count D D' h ds ts) (hy : D' p = some y)
    (hq : y.Between q) : (∃ x, D p = some x ∧ x.Between q) ∨ w.Running q.ident := by
  rcases hq with rfl | hq
  · rcases hp.noted.began hy with ⟨x, hdeal, howner⟩ | ⟨v, hmem⟩
    · exact .inl ⟨x, hdeal, .inl howner⟩
    · have hrun := hp.running (List.ne_nil_of_mem hmem)
      rcases hp.noted.mem hmem with hno | ⟨pl, v', heq, -⟩ | ⟨r, z, a, b, hno, -⟩ | ⟨r, z, z', mv, hno, -⟩
      · cases hno
      · have hident : y.owner.ident = w.ident t := (Event.offer.inj heq).1
        exact .inr (by rwa [hident])
      · cases hno
      · cases hno
  · rcases hp.deed.made_before hy (by rw [hq]; simp) with ⟨x, hdeal, hpartner, -⟩ | ⟨c, d, e, x, hm⟩
    · exact .inl ⟨x, hdeal, .inr (hpartner.trans hq)⟩
    · obtain rfl := Option.some.inj (hm.parties.2.symm.trans hq)
      exact .inr ⟨rfl, hm.comes.not_ended⟩

/-- Who has a part in a deal that is made now is still running afterwards. -/
theorem meets_running (hp : Page kind w w' t act th count D D' h ds ts) {c : Nat} {d : Side}
    {e : Entry Tid} (hm : Meets kind w t act th.frame D p c d e x y) (hq : y.Between q) :
    w'.Running q.ident := by
  rcases (hm.engaged hp.accounts hp.stepped hq).running_or with hrun | hquit
  · exact hrun
  · exact absurd hquit (Lib.Deal.not_quits_of_meet hm.next hq)

theorem settled (hp : Page kind w w' t act th count D D' h ds ts) (hh : Honoured kind w D h)
    (hy : D' p = some y) (hq : y.Between q) :
    w'.Running q.ident ∨ ∃ out, .over q.ident out ∈ h ++ (ds ++ ts) := by
  rcases hp.joined hy hq with ⟨x, hdeal, hq⟩ | hr
  · rcases hh.settled p x q hdeal hq with hr | ⟨out, hout⟩
    · exact hp.goes_on hr
    · exact .inr ⟨out, List.mem_append_left _ hout⟩
  · exact hp.goes_on hr

/-- What the body is about, the operation has been asked for. -/
theorem asked_of_job (hp : Page kind w w' t act th count D D' h ds ts) {j : Job T}
    (hj : (w.thread t).frame.job = some j) : .ask (w.ident t) j ∈ h := by
  refine hp.attested.asked t j ?_
  have hserves := hp.serves t
  unfold Frame.job at hj
  split at hj <;> cases hj <;> rename_i hf <;> rw [hf] at hserves <;> exact hserves

/-- A move does not change who gives a message that is known. -/
theorem origin_next (hp : Page kind w w' t act th count D D' h ds ts) (hh : Honoured kind w D h)
    (hdeal : D p = some x) {mv : Lib.Deal.Move (Party Tid) T} (hnext : x.next mv = some y)
    {m : T} (hst : x.stage ≠ .store) (hm : y.msg = some m) :
    ∃ q, y.giver = some q ∧ .ask q.ident ⟨y.owner.place.chan, some m⟩ ∈ h := by
  rw [Lib.Deal.next_msg hnext hst] at hm
  obtain ⟨q, hgiver, hask⟩ := hh.origin p x m hdeal hm
  obtain ⟨howner, hgives, -⟩ := Lib.Deal.next_static hnext
  refine ⟨q, ?_, by rwa [howner]⟩
  rw [← hgiver, Lib.Deal.giver, Lib.Deal.giver, hgives, howner]
  cases hg : x.gives with
  | true => rfl
  | false =>
    have hmet : x.partner ≠ none := by
      rw [Lib.Deal.giver, hg] at hgiver
      exact fun hno => by rw [hno] at hgiver; cases hgiver
    simp only [(hp.sane p x hdeal).next_partner hmet hnext]

theorem origin (hp : Page kind w w' t act th count D D' h ds ts) (hh : Honoured kind w D h)
    {m : T} (hy : D' p = some y) (hm : y.msg = some m) :
    ∃ q, y.giver = some q ∧ .ask q.ident ⟨y.owner.place.chan, some m⟩ ∈ h ++ (ds ++ ts) := by
  suffices hold : ∃ q, y.giver = some q ∧ .ask q.ident ⟨y.owner.place.chan, some m⟩ ∈ h by
    obtain ⟨q, hgiver, hask⟩ := hold
    exact ⟨q, hgiver, List.mem_append_left _ hask⟩
  have put : ∀ {r z}, (D.put r z) p = some y → (p = r ∧ y = z) ∨ D p = some y := by
    intro r z hp
    by_cases hr : p = r
    · subst hr
      rw [Ledger.put_self] at hp
      exact .inl ⟨rfl, (Option.some.inj hp).symm⟩
    · rw [Ledger.put_of_ne hr] at hp
      exact .inr hp
  have hsane := hp.engagements'.sane p y hy
  have hnoted := hp.noted
  cases hnoted with
  | idle _ => exact hh.origin p y m hy hm
  | enter hstack =>
    rcases put hy with ⟨rfl, rfl⟩ | hold
    · rename_i pl v
      -- Only a blocking sender puts up a packet with its message in it, the one it was asked to send.
      cases hpre : (Accounts.offered w t pl v).prefilled with
      | false =>
        rw [hsane.blank hpre (.inl rfl)] at hm
        cases hm
      | true =>
        obtain ⟨hgives, hkept⟩ := Bool.and_eq_true_iff.mp hpre
        refine ⟨_, if_pos hgives, ?_⟩
        have hask := hp.asked_of_job (hstack hkept)
        rwa [show v.msg = some m from hm] at hask
    · exact hh.origin p y m hold hm
  | meet hmeet _ _ _ =>
    rcases put hy with ⟨rfl, rfl⟩ | hold
    · exact hp.origin_next hh hmeet.deal hmeet.next (by simp [Lib.Deal.meet_stage hmeet.next]) hm
    · exact hh.origin p y m hold hm
  | withdraw hdeal hnext =>
    rcases put hy with ⟨rfl, rfl⟩ | hold
    · exact hp.origin_next hh hdeal hnext (by simp [Lib.Deal.withdraw_stage hnext]) hm
    · exact hh.origin p y m hold hm
  | touch hdeal hnext hmv htouch hmarks hactor hstore =>
    rename_i r x z mv ev
    rcases put hy with ⟨rfl, rfl⟩ | hold
    · by_cases hst : x.stage = .store
      · obtain ⟨a, ha, hident⟩ := hactor
        obtain ⟨m', rfl⟩ := Lib.Deal.move_of_store hst hnext
        obtain ⟨c, hf⟩ := hstore m' rfl
        -- `write` stores the message of the operation that is being completed.
        have hask := hp.asked_of_job (j := ⟨c, some m'⟩) (by rw [hf]; rfl)
        rw [← hident] at hask
        have hmet := (hp.sane p x hdeal).met_of_live (by simp [Lib.Deal.Live, hst])
        have hgiver : x.giver = some a := ha
        have hq := Lib.Deal.between_of_giver hgiver
        obtain ⟨hstatic, -⟩ := Lib.Deal.next_static hnext
        have hmsg : y.msg = some m' := by
          simp only [Lib.Deal.next, hst, if_true] at hnext
          rw [← Option.some.inj hnext]
        obtain rfl := Option.some.inj (hm.symm.trans hmsg)
        obtain ⟨hsame, -⟩ := Lib.Deal.next_parties hnext (by simp [hst])
        have hchan : c = x.owner.place.chan :=
          (hh.roles p x a _ hdeal hmet hq hask).1.trans (hp.engagements.chan hdeal hq)
        exact ⟨a, hsame.trans hgiver, by rwa [hstatic, ← hchan]⟩
      · exact hp.origin_next hh hdeal hnext hst hm
    · exact hh.origin p y m hold hm

theorem serves' (hp : Page kind w w' t act th count D D' h ds ts) (u : Tid) :
    (w'.thread u).frame.Serves (w'.thread u).job := by
  have hafter := hp.stepped.after
  by_cases hu : u = t
  · subst hu
    rw [hafter.frame, hafter.job]
    exact hp.stepped.turn.serves (hp.serves u)
  · rw [hafter.others hu]
    exact hp.serves u

/-- An operation is asked for something when it begins, or when it completes what it has selected. -/
theorem ask_old (hp : Page kind w w' t act th count D D' h ds ts) {j : Job T}
    (hask : .ask a j ∈ h ++ (ds ++ ts)) :
    .ask a j ∈ h ∨ a = ⟨t, (w.thread t).ops + 1⟩ ∨
      a = w.ident t ∧ ∃ x tk, (w.thread t).frame = .chosen x tk ∧ j.chan = x.chan ∧ j.side = x.side := by
  rcases List.mem_append.mp hask with hold | hnew
  · exact .inl hold
  · obtain ⟨rfl, hj⟩ := hp.tells.asks a j hnew
    have hafter := hp.stepped.after
    have hturn := hp.stepped.turn
    have hjob := hafter.job.symm.trans hj
    rw [ident, hafter.ops]
    cases hturn with
    | next _ => exact .inl (hp.attested.asked t j hjob)
    | start _ _ | drop _ _ _ => exact .inr (.inl rfl)
    | complete hf hside =>
      obtain rfl := Option.some.inj hjob
      exact .inr (.inr ⟨rfl, _, _, hf, rfl, hside⟩)

theorem roles (hp : Page kind w w' t act th count D D' h ds ts) (hh : Honoured kind w D h)
    {j : Job T} (hy : D' p = some y) (hmet : y.partner ≠ none) (hq : y.Between q)
    (hask : .ask q.ident j ∈ h ++ (ds ++ ts)) : j.chan = q.place.chan ∧ j.side = q.place.side := by
  have hz : (kind q.place.chan).IsZero := by
    rw [hp.engagements'.chan hy hq]
    exact hp.engagements'.zero p y hy
  rcases hp.deed.made_before hy hmet with ⟨x, hdeal, hpartner, howner, -⟩ | ⟨c, d, e, x, hm⟩
  · have hmet' : x.partner ≠ none := by rwa [hpartner]
    have hq' : x.Between q := by rwa [Lib.Deal.Between, hpartner, howner]
    have he := hp.engagements.plays p x q hdeal hmet' hq'
    rcases hp.ask_old hask with hold | hident | ⟨hident, x', tk, hf, hchan, hside⟩
    · exact hh.roles p x q j hdeal hmet' hq' hold
    · obtain ⟨hthread, hop⟩ := Ident.mk.inj hident
      have hle := he.op_le
      rw [hthread, hop] at hle
      exact absurd hle (Nat.not_succ_le_self _)
    · obtain ⟨hthread, hop⟩ := Ident.mk.inj hident
      cases he with
      | summoned _ _ hmade _ _ =>
        rw [hthread, stakes, hf] at hmade
        exact hmade.elim
      | carries _ hf' =>
        rw [hthread, hf] at hf'
        cases tk with
        | packet p' => exact ⟨hchan.trans hf'.2.1, hside.trans hf'.2.2⟩
        | _ => exact hf'.elim
      | done _ hf' _ =>
        rw [hthread, hf] at hf'
        cases hf'
      | gone hop' _ =>
        rw [hthread, hop] at hop'
        exact absurd hop' (Nat.lt_irrefl _)
  · have hrun := hp.meets_running hm hq
    have hjob := (hp.attested'.asks q.ident j hask).2 hrun.1.symm
    have hserves := hp.serves' q.thread
    rw [Party.ident] at hjob
    rw [hjob] at hserves
    exact (hm.engaged hp.accounts hp.stepped hq).role hz hrun hserves (hp.typed' q.thread)

theorem ends (hp : Page kind w w' t act th count D D' h ds ts) (hh : Honoured kind w D h)
    {out : Outcome T} (hy : D' p = some y) (hmet : y.partner ≠ none) (hq : y.Between q)
    (hover : .over q.ident out ∈ h ++ (ds ++ ts)) : out = Frame.handed y.msg q.place.side := by
  have hstill := hp.attested'.not_running hover
  rcases hp.deed.made_before hy hmet with ⟨x, hdeal, hpartner, howner, hnext⟩ | ⟨c, d, e, x, hm⟩
  · have hmet' : x.partner ≠ none := by rwa [hpartner]
    have hq' : x.Between q := by rwa [Lib.Deal.Between, hpartner, howner]
    rcases List.mem_append.mp hover with hold | hnew
    · have hquit := (hp.engagements.plays p x q hdeal hmet' hq').running_or.resolve_left
        (hp.attested.not_running hold)
      rw [hh.ends p x q out hdeal hmet' hq' hold]
      rcases hnext with rfl | ⟨mv, hnext⟩
      · rfl
      · exact (hp.engagements.handed_next hp.accounts hdeal hq' hquit hnext).symm
    · obtain ⟨hident, hf⟩ := (hp.tells.overs q.ident out).mp hnew
      obtain ⟨hthread, hop⟩ := Ident.mk.inj hident
      rw [← hthread] at hf hop
      cases hp.engagements'.plays p y q hy hmet hq with
      | summoned _ hop' hmade _ _ =>
        rw [stakes, hf] at hmade
        exact hmade.elim
      | carries _ hf' =>
        rw [hf] at hf'
        exact hf'.elim
      | done _ hf' _ => exact Frame.done.inj (hf.symm.trans hf')
      | gone hop' _ => exact absurd hop (Nat.ne_of_lt hop')
  · exact absurd (hp.meets_running hm hq) hstill

theorem unmet (hp : Page kind w w' t act th count D D' h ds ts) (hun : D'.Unmet a) : D.Unmet a := by
  intro p x q hdeal hmet hq
  obtain ⟨y, hy, hmet', hgiver, htaker, -⟩ :=
    hp.noted.parties hp.accounts.unborn hdeal (hp.sane p x hdeal) hmet
  refine hun p y q hy hmet' ?_
  rcases hq.gives_or_takes with hg | ht
  · exact Lib.Deal.between_of_giver (hgiver.trans hg)
  · exact Lib.Deal.between_of_taker (htaker.trans ht)

omit [DecidableEq Tid] in
theorem finishWith_refuses {job : Job T} {tk : Token} {out : Outcome T}
    (hz : (kind job.chan).IsZero) (htk : tk.Suits (kind job.chan))
    (hf : (Frame.finishWith kind job tk : Frame Tid T) = .done out) : out.Refuses job.msg := by
  unfold Frame.finishWith at hf
  cases tk with
  | slot => cases hf
  | null =>
    rw [hz.eq] at hf
    cases hf
    exact .disconnected
  | packet p =>
    dsimp only at hf
    split at hf <;> cases hf
  | instant i => exact absurd hz htk.2

omit [DecidableEq Tid] in
theorem unselected_refuses {sel : Selected Tid} {msg : Option T} {out : Outcome T}
    (hf : Frame.unselected sel msg = .done out) : out.Refuses msg := by
  unfold Frame.unselected at hf
  split at hf <;> cases hf
  · exact .disconnected
  · exact .timeout

/-- A send or receive that returns without a partner comes to nothing. -/
theorem refused_zero (hp : Page kind w w' t act th count D D' h ds ts) (hh : Honoured kind w D h)
    {job : Job T} {mode : Mode} {st : ZeroStage Tid} (hf : (w.thread t).frame = .zero job mode st)
    {pr pr' : Prog} {out : Outcome T}
    (hn : Frame.Next kind w.shared t (.zero job mode st) pr act (.done out) pr')
    (hun : D.Unmet (w.ident t)) : out.Refuses job.msg := by
  have hgrip := hp.accounts.grip t
  have hserves := hp.serves t
  have hz := hp.stepped.typed
  rw [hf] at hgrip hserves hz
  -- The owner of a deal that has been made is not alone.
  have alone : ∀ {p P}, D.Owns t (w.thread t).ops p P → (∀ x, D p = some x → P x → x.partner ≠ none) →
      False := by
    rintro p P ⟨x, hdeal, hthread, hop, hP⟩ hmet
    refine hun p x x.owner hdeal (hmet x hdeal hP) (.inl rfl) ?_
    rw [Party.ident, hthread, hop]
    rfl
  obtain ⟨spurious, rep, he, hmore, hret⟩ := hn.exec
  cases rep with
  | more pr'' => cases (hmore _ rfl).1
  | ret r =>
    obtain ⟨-, order, hr⟩ := hret r rfl
    simp only [Frame.resume] at hr
    cases st with
    | pair =>
      cases r with
      | token tk => exact finishWith_refuses hz (Shared.pair_token (Option.some.inj he) hz) (Option.some.inj hr)
      | failed =>
        cases hr
        exact .unavailable
      | _ => cases hr
    | wait p =>
      cases r with
      | selected sel => cases sel <;> cases hr
      | _ => cases hr
    | withdraw p sel =>
      cases r with
      | removed e =>
        cases e with
        | none => cases hr
        | some e =>
          obtain ⟨c, msg⟩ := job
          cases msg with
          | some m => cases hr
          | none => exact unselected_refuses (Option.some.inj hr)
      | _ => cases hr
    | recover p sel =>
      obtain ⟨-, hrep⟩ := Prod.mk.inj (Option.some.inj he)
      cases hrep
      obtain ⟨x, hdeal, hthread, hop, hpre, hst⟩ := hgrip
      have hfits := (hp.accounts.shows p x hdeal).fits
      simp only [Lib.Deal.Fits, hst] at hfits
      cases hm : (w.shared.packet p).msg with
      | none =>
        rw [hm] at hr
        cases hr
      | some m =>
        rw [hm] at hr hfits
        obtain ⟨q, hgiver, hask⟩ := hh.origin p x m hdeal hfits.2.1.symm
        have hident : q.ident = w.ident t := by
          rw [Lib.Deal.giver, (Bool.and_eq_true_iff.mp hpre).1] at hgiver
          obtain rfl := Option.some.inj hgiver
          rw [Party.ident, hthread, hop]
          rfl
        rw [hident] at hask
        have hjob := (hp.attested.asks _ _ hask).2 rfl
        obtain rfl := Option.some.inj (hjob.symm.trans hserves)
        exact unselected_refuses (Option.some.inj hr)
    | waitReady p => exact (alone hgrip fun x _ hx => hx.2.2.1).elim
    | takeMsg p =>
      exact (alone hgrip fun x hdeal hx => (hp.sane p x hdeal).met_of_live (by simp [Lib.Deal.Live, hx.2.2])).elim

/-- A send or receive that has come to a packet does not come to nothing. -/
theorem not_refused_finish (hp : Page kind w w' t act th count D D' h ds ts)
    {job : Job T} {st : FinishStage T} (hf : (w.thread t).frame = .finish job st)
    (hz : (kind job.chan).IsZero) {pr pr' : Prog} {out : Outcome T}
    (hn : Frame.Next kind w.shared t (.finish job st) pr act (.done out) pr') : ¬ D.Unmet (w.ident t) := by
  intro hun
  have hgrip := hp.accounts.grip t
  have htyped := hp.stepped.typed
  rw [hf] at hgrip htyped
  -- Nor is who gives or takes.
  have gives : ∀ {p P}, D.Gives t (w.thread t).ops p P →
      (∀ x, P x → x.Live) → False := by
    rintro p P ⟨x, q, hdeal, hq, hthread, hop, hP⟩ hst
    refine hun p x q hdeal ((hp.sane p x hdeal).met_of_live (hst x hP)) (Lib.Deal.between_of_giver hq) ?_
    rw [Party.ident, hthread, hop]
    rfl
  have takes : ∀ {p P}, D.Takes t (w.thread t).ops p P →
      (∀ x, P x → x.Live) → False := by
    rintro p P ⟨x, q, hdeal, hq, hthread, hop, hP⟩ hst
    refine hun p x q hdeal ((hp.sane p x hdeal).met_of_live (hst x hP)) (Lib.Deal.between_of_taker hq) ?_
    rw [Party.ident, hthread, hop]
    rfl
  obtain ⟨spurious, rep, he, hmore, hret⟩ := hn.exec
  cases rep with
  | more pr'' => cases (hmore _ rfl).1
  | ret r =>
    obtain ⟨-, order, hr⟩ := hret r rfl
    simp only [Frame.resume] at hr
    cases st with
    | complete | wakeOne out => exact htyped.not_zero hz
    | storeMsg p => exact gives hgrip fun x hx => by simp [Lib.Deal.Live, hx]
    | setReady p out =>
      rcases hgrip with hgrip | hgrip
      · exact gives hgrip fun x hx => by simp [Lib.Deal.Live, hx.2]
      · exact takes hgrip fun x hx => by simp [Lib.Deal.Live, hx.2]
    | dropPacket p m => exact takes hgrip fun x hx => by simp [Lib.Deal.Live, hx]
    | loadOnStack p =>
      cases r with
      | flag b => cases b <;> cases hr
      | _ => cases hr
    | waitReady p =>
      cases r <;> cases hr
    | takeMsg p onStack => exact takes hgrip fun x hx => by simp [Lib.Deal.Live, hx.2.2]

theorem refused (hp : Page kind w w' t act th count D D' h ds ts) (hh : Honoured kind w D h)
    {out : Outcome T} {j : Job T} (hf : (w'.thread t).frame = .done out)
    (hjob : (w'.thread t).job = some j) (hz : (kind j.chan).IsZero) (hun : D.Unmet (w'.ident t)) :
    out.Refuses j.msg := by
  have hafter := hp.stepped.after
  have hturn := hp.stepped.turn
  have htyped := hp.stepped.typed
  rw [hafter.frame] at hf
  rw [hafter.job] at hjob
  rw [ident, hafter.ops] at hun
  cases hturn with
  | next hn =>
    dsimp only at hf hjob
    subst hf
    have hserves := hp.serves t
    rw [hjob] at hserves
    cases hfr : (w.thread t).frame with
    | plain job mode st =>
      rw [hfr] at hserves htyped
      cases hserves
      exact absurd hz htyped.not_zero
    | zero job mode st =>
      rw [hfr] at hserves hn
      cases hserves
      exact hp.refused_zero hh hfr hn hun
    | finish job st =>
      rw [hfr] at hserves hn
      cases hserves
      -- Who completes an operation at a zero channel has a packet, so it is in a deal.
      exact absurd hun (hp.not_refused_finish hfr hz hn)
    | timer c mode =>
      rw [hfr] at hserves htyped
      obtain rfl := Option.some.inj hserves
      exact absurd hz htyped.2
    | select _ _ _ | chosen _ _ | close _ _ _ =>
      rw [hfr] at hserves
      cases hserves
    | done _ | panicked => exact absurd hn (not_next_of_ended (by rw [hfr]; rfl))
  | start hover huses =>
    rename_i op
    cases op with
    | select handles timeout => cases hjob
    | plain job mode =>
      dsimp only [Op.frame] at hf
      split at hf <;> cases hf
  | complete hf' hside =>
    rw [hf'] at htyped
    cases hjob
    exact finishWith_refuses hz htyped hf
  | drop _ _ _ => cases hjob

theorem fails (hp : Page kind w w' t act th count D D' h ds ts) (hh : Honoured kind w D h)
    {out : Outcome T} {j : Job T} (hz : (kind j.chan).IsZero) (hask : .ask a j ∈ h ++ (ds ++ ts))
    (hover : .over a out ∈ h ++ (ds ++ ts)) (hun : D'.Unmet a) : out.Refuses j.msg := by
  rcases List.mem_append.mp hover with hold | hnew
  · obtain ⟨hle, hnow⟩ := hp.attested.overs a out hold
    rcases hp.ask_old hask with hask | rfl | ⟨rfl, x, tk, hf, -⟩
    · exact hh.fails a out j hz hask hold (hp.unmet hun)
    · exact absurd hle (Nat.not_succ_le_self _)
    · cases hf.symm.trans (hnow rfl)
  · obtain ⟨rfl, hf⟩ := (hp.tells.overs a out).mp hnew
    exact hp.refused hh hf ((hp.attested'.asks _ _ hask).2 rfl) hz (hp.unmet hun)

/-- Who works on a packet has something to do about its deal, or is the owner, waiting for its stack
    frame. -/
theorem works (hp : Page kind w w' t act th count D D' h ds ts) {e : Event Tid T} (he : e ∈ ds)
    (htouch : e.touch = some (a, p)) :
    ∃ x, D p = some x ∧ (x.partner ≠ none ∧ x.stage ≠ .over ∨
      x.owner.ident = w.ident t ∧ (x.stage = .over → x.kept = true)) := by
  rcases hp.noted.mem he with hno | ⟨pl, v, rfl, -⟩ | ⟨r, y, a, b, rfl, -⟩ |
    ⟨r, x, y, mv, htouch', hdeal, hnext, -, hmv, -, b, hactor, hident⟩
  · cases hno with
    | looks p hf =>
      cases htouch
      obtain ⟨x, q, hdeal, hq, hident, hlive | ⟨rfl, hkept⟩⟩ := hp.accounts.holds hf
      · exact ⟨x, hdeal, .inl ⟨(hp.sane p x hdeal).met_of_live hlive, fun hst => hlive (.inr (.inr hst))⟩⟩
      · exact ⟨x, hdeal, .inr ⟨hident, hkept⟩⟩
    | takes _ _ _ | fires _ => cases htouch
  · cases htouch
  · cases htouch
  · cases htouch.symm.trans htouch'
    have hst : x.stage ≠ .over := by
      intro hst
      rw [Lib.Deal.next_over hst] at hnext
      cases hnext
    refine ⟨x, hdeal, ?_⟩
    by_cases hm : x.partner = none
    · have hown := Lib.Deal.Sane.actor_of_unmet (hp.sane p x hdeal) hm hnext hmv
      obtain rfl := Option.some.inj (hactor.symm.trans hown)
      exact .inr ⟨hident, fun hno => absurd hno hst⟩
    · exact .inl ⟨hm, hst⟩

theorem touched (hp : Page kind w w' t act th count D D' h ds ts) (hh : Honoured kind w D h)
    {e : Event Tid T} (he : e ∈ h ++ (ds ++ ts)) (htouch : e.touch = some (a, p)) :
    ∃ x, D' p = some x := by
  have kept : ∀ {x}, D p = some x → ∃ x, D' p = some x := fun hdeal =>
    (hp.noted.goes hp.accounts.unborn hdeal).imp fun _ hy => hy.1
  rcases List.mem_append.mp he with he | he
  · obtain ⟨x, hdeal⟩ := hh.touched e he a p htouch
    exact kept hdeal
  · rcases List.mem_append.mp he with he | he
    · obtain ⟨x, hdeal, -⟩ := hp.works he htouch
      exact kept hdeal
    · cases hp.blank e he <;> cases htouch

theorem order (hp : Page kind w w' t act th count D D' h ds ts) (hh : Honoured kind w D h) :
    (h ++ (ds ++ ts)).Pairwise fun e e' => ∀ a p, e'.touch = some (a, p) →
      (∀ b, e ≠ .free b p) ∧
        ∀ x out, D' p = some x → x.kept = true → e ≠ .over x.owner.ident out := by
  have keeps : ∀ {p x}, D p = some x → ∃ y, D' p = some y ∧ y.owner = x.owner ∧ y.kept = x.kept := by
    intro p x hdeal
    obtain ⟨y, hy, howner, hkept, -⟩ := hp.noted.keeps hp.accounts.unborn hdeal (hp.sane p x hdeal)
    exact ⟨y, hy, howner, hkept⟩
  -- A turn works on one packet at most, before it is written down that its operation returns.
  have untouched : ∀ e ∈ ts, ∀ a p, e.touch ≠ some (a, p) := by
    intro e he a p htouch
    cases hp.blank e he <;> cases htouch
  refine List.pairwise_append.mpr ⟨?_, List.pairwise_append.mpr ⟨?_, ?_, ?_⟩, ?_⟩
  · refine hh.order.imp_of_mem fun {e e'} _ he' hold a p htouch => ?_
    obtain ⟨hfree, hover⟩ := hold a p htouch
    obtain ⟨x, hdeal⟩ := hh.touched e' he' a p htouch
    obtain ⟨y, hy, howner, hkept⟩ := keeps hdeal
    refine ⟨hfree, fun z out hz hk => ?_⟩
    obtain rfl := Option.some.inj (hy.symm.trans hz)
    rw [howner]
    exact hover x out hdeal (hkept.symm.trans hk)
  · have hnoted := hp.noted
    cases hnoted with
    | idle hes =>
      refine List.pairwise_of_forall_mem_list fun e he e' _ a p _ => ?_
      cases hes e he <;> simp
    | withdraw _ _ => exact List.Pairwise.nil
    | enter _ | meet _ _ _ _ | touch _ _ _ _ _ _ _ => exact List.pairwise_singleton _ _
  · exact List.pairwise_of_forall_mem_list fun e _ e' he' a p htouch =>
      absurd htouch (untouched e' he' a p)
  · exact fun e _ e' he' a p htouch => absurd htouch (untouched e' he' a p)
  · intro e he e' he' a p htouch
    rcases List.mem_append.mp he' with he' | he'
    · obtain ⟨x, hdeal, hwhy⟩ := hp.works he' htouch
      obtain ⟨y, hy, howner, hkept⟩ := keeps hdeal
      refine ⟨?_, ?_⟩
      -- The deal about a packet that has been freed is over, and nothing is to be done about that one.
      · rintro b rfl
        have hst := hp.recorded.over_of_freed hdeal he
        obtain ⟨x', hdeal', hk, -⟩ := hp.recorded.freed b p he
        obtain rfl := Option.some.inj (hdeal.symm.trans hdeal')
        rcases hwhy with ⟨-, hno⟩ | ⟨-, hkept'⟩
        · exact hno hst
        · rw [hkept' hst] at hk
          cases hk
      · rintro z out hz hk rfl
        obtain rfl := Option.some.inj (hy.symm.trans hz)
        have hstill := hp.attested.not_running he
        rw [howner] at hstill
        rcases hwhy with ⟨hm, hno⟩ | ⟨hident, -⟩
        · have hquit := (hp.engagements.plays p x x.owner hdeal hm (.inl rfl)).running_or.resolve_left hstill
          exact hno (hquit.over_of_kept (hkept.symm.trans hk))
        · rw [hident] at hstill
          exact hstill (hp.running (List.ne_nil_of_mem he'))
    · exact absurd htouch (untouched e' he' a p)

/-- **Every turn keeps the deals and the history in agreement.** -/
theorem honoured (hp : Page kind w w' t act th count D D' h ds ts) (hh : Honoured kind w D h) :
    Honoured kind w' D' (h ++ (ds ++ ts)) where
  settled := fun _ _ _ hy hq => hp.settled hh hy hq
  origin := fun _ _ _ hy hm => hp.origin hh hy hm
  roles := fun _ _ _ _ hy hm hq hask => hp.roles hh hy hm hq hask
  ends := fun _ _ _ _ hy hm hq hover => hp.ends hh hy hm hq hover
  fails := fun _ _ _ hz hask hover hun => hp.fails hh hz hask hover hun
  touched := fun _ he _ _ htouch => hp.touched hh he htouch
  order := hp.order hh

end Page

/-! ## All of it together -/

omit [DecidableEq Tid] in
/-- What is said of the operations leaves no marks. -/
theorem recorded_blank (hr : D.Recorded h)
    (hts : ∀ e ∈ ts, e.Said) : D.Recorded (h ++ ts) where
  marks := by
    intro p k
    have hnone : ts.countP (Event.marks p k) = 0 := by
      refine List.countP_eq_zero.mpr fun e he => ?_
      cases hts e he <;> simp [Event.marks]
    rw [List.countP_append, hnone, Nat.add_zero, hr.marks]
  offered := by
    intro a p v he
    rcases List.mem_append.mp he with he | he
    · exact hr.offered a p v he
    · cases hts _ he
  begun := fun p x hdeal => (hr.begun p x hdeal).imp fun _ he => List.mem_append_left _ he
  paired := by
    intro a b c p he
    rcases List.mem_append.mp he with he | he
    · exact hr.paired a b c p he
    · cases hts _ he
  shown := by
    intro a p he
    rcases List.mem_append.mp he with he | he
    · exact hr.shown a p he
    · cases hts _ he
  freed := by
    intro a p he
    rcases List.mem_append.mp he with he | he
    · exact hr.freed a p he
    · cases hts _ he

/-- **All that is known of a state and its history**, by a ledger. -/
structure Chronicle (kind : Nat → Kind T) (w : World Tid T) (D : Ledger Tid T)
    (h : List (Event Tid T)) : Prop where
  accounts : Accounts kind w D
  engagements : Engagements kind w D
  recorded : D.Recorded h
  attested : Attested w h
  honoured : Honoured kind w D h

theorem Page.chronicle (hp : Page kind w w' t act th count D D' h ds ts) (hh : Honoured kind w D h) :
    Chronicle kind w' D' (h ++ (ds ++ ts)) where
  accounts := hp.accounts'
  engagements := hp.engagements'
  recorded := by
    rw [← List.append_assoc]
    exact recorded_blank (hp.noted.recorded hp.recorded hp.accounts.unborn hp.sane) hp.blank
  attested := hp.attested'
  honoured := hp.honoured hh

omit [DecidableEq Tid] in
/-- Handles and time are of no account. -/
theorem Engaged.congr {p : Nat} {x : Lib.Deal (Party Tid) T} {q : Party Tid}
    (hthread : w'.thread = w.thread) (hreg : w'.shared.reg = w.shared.reg)
    (he : Engaged kind w p x q) : Engaged kind w' p x q := by
  have hstakes : stakes kind w' q.thread = stakes kind w q.thread := by rw [stakes, stakes, hthread]
  cases he with
  | summoned howner hop hmade hsel hpacket =>
    exact .summoned howner (by rwa [hthread]) (by rwa [hstakes]) (by rwa [hreg]) (by rwa [hreg])
  | carries hop hf => exact .carries (by rwa [hthread]) (by rwa [hthread])
  | done hop hf hquit => exact .done (by rwa [hthread]) (by rwa [hthread]) hquit
  | gone hop hquit => exact .gone (by rwa [hthread]) hquit

omit [DecidableEq Tid] in
theorem Loose.congr {p : Nat} {x : Lib.Deal (Party Tid) T}
    (hthread : w'.thread = w.thread) (hreg : w'.shared.reg = w.shared.reg)
    (hl : Loose w p x) : Loose w' p x := by
  cases hl with
  | closed hst => exact .closed hst
  | left hst hkept hgives => exact .left hst hkept hgives
  | recalled hop hst hf => exact .recalled (by rwa [hthread]) hst (by rwa [hthread])
  | offered hop hst he => exact .offered (by rwa [hthread]) hst (by rwa [hreg])

omit [DecidableEq Tid] in
theorem Chronicle.congr (hc : Chronicle kind w D h) (hthread : w'.thread = w.thread)
    (hreg : w'.shared.reg = w.shared.reg) (hpacket : w'.shared.packet = w.shared.packet)
    (hfresh : w'.shared.fresh = w.shared.fresh) : Chronicle kind w' D h where
  accounts :=
    { shows := by
        intro p x hdeal
        obtain ⟨hborn, hside, hfits, hkept⟩ := hc.accounts.shows p x hdeal
        exact ⟨by rwa [hfresh], hside, by rwa [hpacket], by rwa [hpacket]⟩
      queued := by
        rw [hthread, hreg]
        exact hc.accounts.queued
      own := by
        rw [hthread, hreg]
        exact hc.accounts.own
      told := by
        rw [hthread, hreg]
        exact hc.accounts.told
      selected := by
        simp only [stakes, hthread, hreg]
        exact hc.accounts.selected
      grip := by
        rw [hthread]
        exact hc.accounts.grip }
  engagements :=
    { sane := hc.engagements.sane
      zero := hc.engagements.zero
      known := by
        rw [hthread]
        exact hc.engagements.known
      partner := hc.engagements.partner
      plays := fun p x q hdeal hm hq => (hc.engagements.plays p x q hdeal hm hq).congr hthread hreg
      once := hc.engagements.once
      loose := fun p x hdeal hm => (hc.engagements.loose p x hdeal hm).congr hthread hreg }
  recorded := hc.recorded
  attested :=
    { asked := by
        simp only [ident, hthread]
        exact hc.attested.asked
      asks := by
        rw [hthread]
        exact hc.attested.asks
      overs := by
        rw [hthread]
        exact hc.attested.overs
      once := hc.attested.once
      last := hc.attested.last }
  honoured :=
    { settled := by
        simp only [Running, hthread]
        exact hc.honoured.settled
      origin := hc.honoured.origin
      roles := hc.honoured.roles
      ends := hc.honoured.ends
      fails := hc.honoured.fails
      touched := hc.honoured.touched
      order := hc.honoured.order }

/-- **A step of the machine is a page of the history**, or it is of no account. -/
theorem Chronicle.page {l : Label Tid T} (hc : Chronicle kind w D h) (hr : (system kind).Reachable w)
    (hs : w.step kind l = some w') :
    (∃ t act th count D' ds ts, Page kind w w' t act th count D D' h ds ts ∧
        w.events kind l w' = ds ++ ts) ∨
      (w.events kind l w' = [] ∧ ((∃ c d, w' = w.setCount c d (w.count c d + 1)) ∨
        ∃ now, w' = { w with shared := { w.shared with clock := now } })) := by
  have hr' : (system kind).Reachable w' := hr.step hs
  refine (events_cases hs).imp_left ?_
  rintro ⟨t, act, th, count, ht, ha, hwhat⟩
  have hx : Stepped kind w w' t act th count := ⟨sound_of_reachable hr, sound_of_reachable hr',
    aware_of_reachable hr, typed_of_reachable hr t, ht, ha⟩
  obtain ⟨D', hd, ha'⟩ := hc.accounts.kept hx
  -- The rest of the page.
  have page : ∀ {ds ts}, Noted kind w t act th.frame D D' ds → ds = w.deeds kind t act →
      Tells w w' t (ds ++ ts) → (∀ e ∈ ts, e.Said) →
      (ds ≠ [] → w.Running (w.ident t)) → Page kind w w' t act th count D D' h ds ts :=
    fun hn hds htells hblank hrun => ⟨hx, hc.accounts, ha', hc.engagements, hd, serves_of_reachable hr,
      typed_of_reachable hr', never_panics hr' t, hc.recorded, hc.attested, hn, hds, htells, hblank, hrun⟩
  rcases hwhat with ⟨f, pr, hn, rfl, hes⟩ | ⟨hcall, hes⟩
  · have hnoted := hd.noted hc.engagements hc.accounts
    refine ⟨t, act, _, count, D', _, _, page hnoted rfl (hnoted.tells ha rfl rfl (call_of_next hn)) (fun e he => ?_)
      fun _ => ⟨rfl, ?_⟩, hes⟩
    · obtain ⟨out, -, rfl⟩ := mem_returned.mp he
      exact .ends _ out
    · cases hf : (w.thread t).frame.ended with
      | false => exact hf
      | true => exact absurd hn (not_next_of_ended hf)
  · have hsilent : act = .silent := by
      cases ht with
      | next hn =>
        obtain ⟨spurious, rep, he, -⟩ := hn.exec
        rw [hcall] at he
        cases he
      | start _ _ | complete _ _ | drop _ _ _ => rfl
    subst hsilent
    obtain rfl := hd.of_silent (by rw [hcall]; rfl)
    have hdeeds : [] = w.deeds kind t .silent := by simp only [deeds, hcall]
    have hidle : Noted kind w t .silent th.frame D' D' [] := .idle fun e he => (by cases he)
    refine ⟨t, .silent, th, count, D', [], _, page hidle hdeeds (tells_asked hcall) (fun e he => ?_)
      fun hno => absurd rfl hno, hes⟩
    rcases List.mem_append.mp he with he | he
    · rcases mem_asked.mp he with ⟨j, -, rfl⟩ | ⟨handles, timeout, st, -, -, rfl⟩
      · exact .asks _ j
      · exact .picks _ handles
    · obtain ⟨out, -, rfl⟩ := mem_returned.mp he
      exact .ends _ out

/-- What is written down of a step of the machine. -/
theorem Chronicle.step {l : Label Tid T} (hc : Chronicle kind w D h) (hr : (system kind).Reachable w)
    (hs : w.step kind l = some w') : ∃ D', Chronicle kind w' D' (h ++ w.events kind l w') := by
  rcases hc.page hr hs with ⟨t, act, th, count, D', ds, ts, hp, hes⟩ | ⟨hno, hw⟩
  · exact ⟨D', hes ▸ hp.chronicle hc.honoured⟩
  · rw [hno, List.append_nil]
    rcases hw with ⟨c, d, rfl⟩ | ⟨now, rfl⟩
    · exact ⟨D, hc.congr rfl rfl rfl rfl⟩
    · exact ⟨D, hc.congr rfl rfl rfl rfl⟩

/-- **There is a ledger for every history.** -/
theorem chronicle_of_reachable {x : World Tid T × List (List (Event Tid T))}
    (hr : (history kind).Reachable x) : ∃ D, Chronicle kind x.1 D x.2.flatten := by
  refine hr.invariant (P := fun x => ∃ D, Chronicle kind x.1 D x.2.flatten) ?_
    fun x l y hx ⟨D, hc⟩ hs => ?_
  · rintro ⟨_, _⟩ ⟨rfl, rfl⟩
    refine ⟨fun _ => none, ?_, ?_, ?_, ?_, ?_⟩
    · exact ⟨fun p x hx => (by cases hx), fun c d e _ he => absurd he List.not_mem_nil,
        fun c d e q he _ => absurd he List.not_mem_nil, fun t p op hp _ => (by cases hp),
        fun t x hmade _ _ => hmade.elim, fun t => trivial⟩
    · constructor <;> intros <;> contradiction
    · constructor <;> first | (intros; rfl) | (intros; contradiction)
    · constructor <;> intros <;> contradiction
    · constructor <;> first | exact List.Pairwise.nil | (intros; contradiction)
  · rw [flatten_of_step hs]
    exact hc.step hx.forget hs.1

end World

end CrossbeamChannel
