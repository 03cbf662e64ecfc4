/-!
# Handing a message over in a slot

A party offers a slot to whoever comes first. The two of them then fill it, publish it, empty it
and free it, each when it is its turn: `Deal.next`. An owner that gives may fill its slot before
it offers it, when the slot is part of the owner and needs no freeing; then the slot is emptied
first and published afterwards, to let the owner go.

`Deal.Fits` says what is in the slot and whether its flag is set, whatever the deal has come to;
every move keeps it (`Deal.Fits.store`, `Deal.Fits.publish`, `Deal.Fits.take`).
-/

namespace CrossbeamChannel.Lib

/-- What is to be done next about a slot. -/
inductive Deal.Stage where
  /-- The owner has offered it, and nobody has come yet. -/
  | offered
  /-- The owner has taken the offer back. -/
  | withdrawn
  | store
  | publish
  | take
  | free
  | over
  deriving DecidableEq

/-- A slot, and who is to do what about it. -/
structure Deal (P M : Type) where
  owner : P
  partner : Option P
  /-- The owner is the one who gives the message. -/
  gives : Bool
  /-- The slot is part of its owner. Otherwise it is freed by who has emptied it. -/
  kept : Bool
  /-- The message, once it is known. -/
  msg : Option M
  stage : Deal.Stage

/-- What can be done about a slot. -/
inductive Deal.Move (P M : Type) where
  | meet (partner : P)
  | withdraw
  /-- Withdraw and free. -/
  | discard
  | store (msg : M)
  | publish
  | take
  | free

namespace Deal

variable {P M : Type} (x : Deal P M)

/-- The message has been in the slot from the beginning. -/
def prefilled : Bool := x.gives && x.kept

/-- Who gives the message. -/
def giver : Option P := if x.gives then some x.owner else x.partner

/-- Who takes the message. -/
def taker : Option P := if x.gives then x.partner else some x.owner

/-- What a move leads to, if it is possible. -/
def next : Move P M → Option (Deal P M)
  | .meet q =>
      if x.stage = .offered then
        some { x with partner := some q, stage := if x.prefilled then .take else .store }
      else none
  | .withdraw => if x.stage = .offered then some { x with stage := .withdrawn } else none
  | .discard =>
      if x.stage = .offered ∧ x.kept = false then some { x with stage := .over } else none
  | .store m =>
      if x.stage = .store then some { x with msg := some m, stage := .publish } else none
  | .publish =>
      if x.stage = .publish then some { x with stage := if x.prefilled then .over else .take }
      else none
  | .take =>
      if x.stage = .take then
        some { x with
          stage := if x.prefilled then .publish else if x.kept then .over else .free }
      else if x.stage = .withdrawn ∧ x.prefilled then some { x with stage := .over }
      else none
  | .free =>
      if x.stage = .free ∨ x.stage = .withdrawn ∧ x.kept = false then
        some { x with stage := .over }
      else none

theorem next_static {x y : Deal P M} {mv : Move P M} (hn : x.next mv = some y) :
    y.owner = x.owner ∧ y.gives = x.gives ∧ y.kept = x.kept := by
  cases mv with
  | _ =>
    simp only [next] at hn
    repeat' split at hn
    all_goals cases hn
    all_goals exact ⟨rfl, rfl, rfl⟩

/-- What the slot shows: its flag, and what is in it. -/
def Fits (ready : Bool) (msg : Option M) : Prop :=
  match x.stage with
  | .offered | .withdrawn => ready = false ∧ msg = x.msg ∧ msg.isSome = x.prefilled
  | .store => ready = false ∧ msg = none ∧ x.prefilled = false
  | .publish => ready = false ∧ (x.prefilled = false → msg = x.msg ∧ msg.isSome)
  | .take => ready = !x.prefilled ∧ msg = x.msg ∧ msg.isSome
  | .free => x.kept = false
  | .over => True

/-- Whose move it is. -/
def actor : Move P M → Option P
  | .meet q => some q
  | .withdraw | .discard => some x.owner
  | .store _ => x.giver
  | .publish => if x.prefilled then x.taker else x.giver
  | .take | .free => if x.stage = .withdrawn then some x.owner else x.taker

/-- The message is still to be taken, from a slot the taker does not keep. -/
def Awaited : Prop :=
  (x.kept = true → x.gives = true) ∧
    (x.stage = .take ∨ (x.prefilled = false ∧ (x.stage = .store ∨ x.stage = .publish)))

/-- The owner has yet to do its part in a deal that has been made. -/
def Open : Prop :=
  x.partner ≠ none ∧
    if x.gives then
      if x.kept then x.stage = .take ∨ x.stage = .publish ∨ x.stage = .over else x.stage = .store
    else x.stage = .store ∨ x.stage = .publish ∨ x.stage = .take

/-- The two have met, and are not done. -/
def Live : Prop := ¬ (x.stage = .offered ∨ x.stage = .withdrawn ∨ x.stage = .over)

/-- One of the two parties. -/
def Between (q : P) : Prop := q = x.owner ∨ x.partner = some q

/-- The giver has done its part. -/
def Given : Prop := x.stage = .over ∨ x.prefilled = false ∧ (x.stage = .take ∨ x.stage = .free)

/-- This party has done its part. -/
def Quits (q : P) : Prop := (x.giver = some q → x.Given) ∧ (x.taker = some q → x.stage = .over)

/-- What can have been done about a slot. -/
inductive Mark where
  | met
  | filled
  | shown
  | emptied
  | freed
  deriving DecidableEq

/-- What a move does about its slot. -/
def Move.mark : Move P M → Option Mark
  | .meet _ => some .met
  | .withdraw => none
  | .discard | .free => some .freed
  | .store _ => some .filled
  | .publish => some .shown
  | .take => some .emptied

/-- Whether this has been done. -/
def has : Mark → Bool
  | .met => x.partner.isSome
  | .filled => x.msg.isSome
  | .shown =>
      x.partner.isSome &&
        (x.stage = .over || !x.prefilled && (x.stage = .take || x.stage = .free))
  | .emptied =>
      x.stage = .free || x.prefilled && x.stage = .publish ||
        x.stage = .over && (x.partner.isSome || x.kept)
  | .freed => !x.kept && x.stage = .over

/-- What holds of every deal, whatever it has come to. -/
structure Sane : Prop where
  lone : x.partner = none → x.stage = .offered ∨ x.stage = .withdrawn ∨ x.stage = .over
  met : x.partner ≠ none → x.stage ≠ .offered ∧ x.stage ≠ .withdrawn
  blank : x.prefilled = false → x.stage = .offered ∨ x.stage = .withdrawn ∨ x.stage = .store →
    x.msg = none
  full : x.prefilled = true ∨ x.stage = .publish ∨ x.stage = .take ∨ x.stage = .free ∨
    x.partner ≠ none ∧ x.stage = .over → x.msg.isSome
  heap : x.stage = .free → x.kept = false
  empty : x.stage = .store → x.prefilled = false

variable {x} {y : Deal P M} {ready : Bool} {msg : Option M}

/-! ## Moves keep what the slot shows -/

theorem Fits.meet (h : x.Fits ready msg) {q : P} (hn : x.next (.meet q) = some y) :
    y.Fits ready msg := by
  cases hp : x.prefilled with
  | false | true =>
    simp only [next, hp] at hn
    split at hn <;> cases hn
    rename_i hst
    simp only [Fits, hst, hp] at h
    rw [prefilled] at hp
    obtain ⟨hready, hmsg, hfull⟩ := h
    subst hmsg
    simpa [Fits, prefilled, hp, hready] using hfull

theorem Fits.withdraw (h : x.Fits ready msg) (hn : x.next .withdraw = some y) :
    y.Fits ready msg := by
  simp only [next] at hn
  split at hn <;> cases hn
  rename_i hst
  simpa only [Fits, hst, prefilled] using h

theorem Fits.discard (hn : x.next .discard = some y) : y.Fits ready msg := by
  simp only [next] at hn
  split at hn <;> cases hn
  trivial

theorem Fits.store (h : x.Fits ready msg) {m : M} (hn : x.next (.store m) = some y) :
    y.Fits ready (some m) := by
  simp only [next] at hn
  split at hn <;> cases hn
  rename_i hst
  simp only [Fits, hst] at h
  simp [Fits, h.1]

/-- Whose turn it is to publish has filled the slot, or has emptied it. -/
theorem Fits.publish (h : x.Fits ready msg) (hn : x.next .publish = some y) :
    y.Fits true msg := by
  simp only [next] at hn
  split at hn <;> cases hn
  rename_i hst
  simp only [Fits, hst] at h
  cases hp : x.prefilled with
  | true => trivial
  | false =>
    obtain ⟨hmsg, hfull⟩ := h.2 hp
    rw [prefilled] at hp
    simp [Fits, prefilled, hp, hfull, ← hmsg]

theorem Fits.take (h : x.Fits ready msg) (hn : x.next .take = some y) : y.Fits ready none := by
  simp only [next] at hn
  split at hn
  · rename_i hst
    cases hn
    simp only [Fits, hst] at h
    cases hp : x.prefilled with
    | true =>
      rw [hp] at h
      rw [prefilled] at hp
      simp [Fits, prefilled, hp, h.1]
    | false =>
      cases hk : x.kept with
      | true => trivial
      | false => simp [Fits]
  · split at hn <;> cases hn
    trivial

theorem Fits.free (hn : x.next .free = some y) : y.Fits ready msg := by
  simp only [next] at hn
  split at hn <;> cases hn
  trivial

/-- **Who takes finds a message.** -/
theorem Fits.full (h : x.Fits ready msg) (hn : x.next .take = some y) :
    msg = x.msg ∧ msg.isSome := by
  simp only [next] at hn
  split at hn
  · rename_i hst
    simp only [Fits, hst] at h
    exact h.2
  · split at hn
    · rename_i hst
      simp only [Fits, hst.1] at h
      rw [hst.2] at h
      exact h.2
    · cases hn

/-! ## Moves of one party as the other sees them -/

theorem next_parties {mv : Move P M} (hn : x.next mv = some y) (hst : x.stage ≠ .offered) :
    y.giver = x.giver ∧ y.taker = x.taker := by
  unfold next at hn
  repeat' split at hn
  all_goals cases hn
  all_goals first | exact ⟨rfl, rfl⟩ | exact absurd ‹_› hst

/-- What can be done next is up to one party. -/
theorem actor_of_next {mv : Move P M} (hn : x.next mv = some y) :
    (x.stage = .store → x.actor mv = x.giver) ∧
    (x.stage = .publish → x.actor mv = if x.prefilled then x.taker else x.giver) ∧
    (x.stage = .take ∨ x.stage = .free → x.actor mv = x.taker) ∧
    (x.stage = .withdrawn → x.actor mv = some x.owner) := by
  cases hst : x.stage <;> cases mv <;> simp [next, hst] at hn <;> simp [actor, hst]

/-- Who is met has its part to do. -/
theorem open_of_meet {q : P} (hn : x.next (.meet q) = some y) : y.Open := by
  cases hg : x.gives <;> cases hk : x.kept <;> simp [next, prefilled, hg, hk] at hn <;>
    simp [← hn.2, Open]

theorem next_partner {mv : Move P M} (hn : x.next mv = some y) (hmv : ∀ q, mv ≠ .meet q) :
    y.partner = x.partner := by
  unfold next at hn
  repeat' split at hn
  all_goals cases hn
  all_goals first | rfl | exact absurd rfl (hmv _)

/-- The moves of the partner do not take the owner's part from it. -/
theorem Open.next {mv : Move P M} (h : x.Open) (hn : x.next mv = some y)
    (ha : x.actor mv ≠ some x.owner) : y.Open := by
  obtain ⟨-, hgives, hkept⟩ := next_static hn
  obtain ⟨hstore, -, htake, -⟩ := actor_of_next hn
  obtain ⟨hmet, h⟩ := h
  have hpartner : y.partner = x.partner := by
    refine next_partner hn ?_
    rintro q rfl
    simp only [Deal.next] at hn
    split at hn
    · rename_i hst
      repeat' split at h
      all_goals simp [hst] at h
    · cases hn
  refine ⟨by rwa [hpartner], ?_⟩
  simp only [hgives, hkept]
  cases hg : x.gives with
  | true =>
    cases hk : x.kept with
    | true =>
      have hp : x.prefilled = true := by rw [prefilled, hg, hk]; rfl
      rw [hg, hk] at h
      rcases h with hst | hst | hst <;> cases mv <;> simp [Deal.next, hst, hp] at hn <;> simp [← hn]
    | false =>
      rw [hg, hk] at h
      exact absurd (hstore h) (by simpa [giver, hg] using ha)
  | false =>
    have hp : x.prefilled = false := by rw [prefilled, hg]; rfl
    rw [hg] at h
    rcases h with hst | hst | hst
    · cases mv <;> simp [Deal.next, hst] at hn
      simp [← hn]
    · cases mv <;> simp [Deal.next, hst, hp] at hn
      simp [← hn]
    · exact absurd (htake (.inl hst)) (by simpa [taker, hg] using ha)

/-- The moves of the giver do not take the taker's part from it. -/
theorem Awaited.next {mv : Move P M} (h : x.Awaited) (hn : x.next mv = some y)
    (ha : x.actor mv ≠ x.taker) : y.Awaited := by
  obtain ⟨-, hgives, hkept⟩ := next_static hn
  obtain ⟨hown, hst | ⟨hp, hst | hst⟩⟩ := h
  · exact absurd ((actor_of_next hn).2.2.1 (.inl hst)) ha
  · have hp' : y.prefilled = false := by rw [prefilled, hgives, hkept]; exact hp
    refine ⟨by rwa [hgives, hkept], .inr ⟨hp', .inr ?_⟩⟩
    cases mv <;> simp [Deal.next, hst] at hn
    simp [← hn]
  · refine ⟨by rwa [hgives, hkept], .inl ?_⟩
    cases mv <;> simp [Deal.next, hst, hp] at hn
    simp [← hn]

theorem Awaited.not_offered (h : x.Awaited) : x.stage ≠ .offered := by
  rcases h.2 with hst | ⟨-, hst | hst⟩ <;> simp [hst]

theorem Open.not_offered (h : x.Open) : x.stage ≠ .offered := by
  obtain ⟨-, h⟩ := h
  split at h
  · split at h
    · rcases h with hst | hst | hst <;> simp [hst]
    · simp [h]
  · rcases h with hst | hst | hst <;> simp [hst]

/-- Who waits for the flag, and has found it set, may take. -/
theorem Fits.published (h : x.Fits true msg) (ho : x.Open) (hg : x.gives = false) :
    x.stage = .take := by
  obtain ⟨-, ho⟩ := ho
  simp only [hg] at ho
  rcases ho with hst | hst | hst
  · simp [Fits, hst] at h
  · simp [Fits, hst] at h
  · exact hst

/-- Who waits for the flag of a slot it has come to, and has found it set, may take. -/
theorem Fits.arrived (h : x.Fits true msg) (ha : x.Awaited) : x.stage = .take := by
  rcases ha.2 with hst | ⟨-, hst | hst⟩
  · exact hst
  · simp [Fits, hst] at h
  · simp [Fits, hst] at h

/-- A slot the owner keeps, and the other party empties, is full from the beginning. -/
theorem Awaited.prefilled (h : x.Awaited) : x.prefilled = x.kept ∧ (x.kept = true → x.stage = .take) := by
  cases hk : x.kept with
  | false => simp [Deal.prefilled, hk]
  | true =>
    have hp : x.prefilled = true := by rw [Deal.prefilled, h.1 hk, hk]; rfl
    exact ⟨hp, fun _ => h.2.resolve_right fun hno => by rw [hp] at hno; cases hno.1⟩

/-! ## How a deal comes to its end -/

theorem next_over {mv : Move P M} (hst : x.stage = .over) : x.next mv = none := by
  cases mv <;> simp [next, hst]

theorem Given.next {mv : Move P M} (h : x.Given) (hn : x.next mv = some y) : y.Given := by
  obtain ⟨-, hgives, hkept⟩ := next_static hn
  rcases h with hst | ⟨hp, hst | hst⟩
  · rw [next_over hst] at hn
    cases hn
  · have hp' : y.prefilled = false := by rw [prefilled, hgives, hkept]; exact hp
    cases mv <;> simp [Deal.next, hst, hp] at hn
    cases hk : x.kept with
    | true => exact .inl (by simp [← hn, hk])
    | false => exact .inr ⟨hp', .inr (by simp [← hn, hk])⟩
  · cases mv <;> simp [Deal.next, hst] at hn
    simp [Given, ← hn]

/-- Who has been met stays the partner. -/
theorem Sane.next_partner (h : x.Sane) (hm : x.partner ≠ none) {mv : Move P M}
    (hn : x.next mv = some y) : y.partner = x.partner := by
  refine Deal.next_partner hn ?_
  rintro q rfl
  simp only [Deal.next] at hn
  split at hn
  · exact absurd ‹_› (h.met hm).1
  · cases hn

/-- Whoever has done its part has done it for good. -/
theorem Quits.next {q : P} (hq : x.Quits q) (h : x.Sane) (hm : x.partner ≠ none) {mv : Move P M}
    (hn : x.next mv = some y) : y.Quits q := by
  obtain ⟨hgiver, htaker⟩ := next_parties hn (h.met hm).1
  refine ⟨fun hg => (hq.1 (hgiver ▸ hg)).next hn, fun ht => ?_⟩
  rw [next_over (hq.2 (htaker ▸ ht))] at hn
  cases hn

/-- An owner that has done its part in a slot it keeps was the last to have one. -/
theorem Quits.over_of_kept (h : x.Quits x.owner) (hk : x.kept = true) : x.stage = .over := by
  cases hg : x.gives with
  | true =>
    rcases h.1 (if_pos hg) with hst | ⟨hp, -⟩
    · exact hst
    · simp [prefilled, hg, hk] at hp
  | false => exact h.2 (by simp [taker, hg])

/-- Each party gives or takes. -/
theorem Between.gives_or_takes {q : P} (h : x.Between q) : x.giver = some q ∨ x.taker = some q := by
  unfold giver taker
  cases x.gives <;> rcases h with rfl | h <;> simp_all

theorem between_of_giver {q : P} (h : x.giver = some q) : x.Between q := by
  unfold giver at h
  split at h
  · exact .inl (Option.some.inj h).symm
  · exact .inr h

theorem between_of_taker {q : P} (h : x.taker = some q) : x.Between q := by
  unfold taker at h
  split at h
  · exact .inr h
  · exact .inl (Option.some.inj h).symm

/-- Neither has done its part when the two meet. -/
theorem not_quits_of_meet {q r : P} (hn : x.next (.meet r) = some y) (hq : y.Between q) :
    ¬ y.Quits q := by
  rintro ⟨hgives, htakes⟩
  have hy : y.partner = some r ∧ y.stage = if y.prefilled then .take else .store := by
    simp only [next] at hn
    split at hn <;> cases hn
    exact ⟨rfl, rfl⟩
  rcases hq.gives_or_takes with hg | ht
  · rcases hgives hg with hst | ⟨hp, hst⟩
    · rw [hy.2] at hst
      split at hst <;> cases hst
    · rw [hy.2, hp] at hst
      rcases hst with hst | hst <;> cases hst
  · have hst := htakes ht
    rw [hy.2] at hst
    split at hst <;> cases hst

/-- Who makes a move is one of the parties. -/
theorem between_of_actor {mv : Move P M} {q : P} (ha : x.actor mv = some q) (hmv : ∀ r, mv ≠ .meet r) :
    x.Between q := by
  cases mv with
  | meet r => exact absurd rfl (hmv r)
  | withdraw | discard => exact .inl (Option.some.inj ha).symm
  | store m => exact between_of_giver ha
  | publish =>
    simp only [actor] at ha
    split at ha
    · exact between_of_taker ha
    · exact between_of_giver ha
  | take | free =>
    simp only [actor] at ha
    split at ha
    · exact .inl (Option.some.inj ha).symm
    · exact between_of_taker ha

/-- The owner of a full slot, which waits for the flag and has found it set, may go. -/
theorem Fits.returned (h : x.Fits true msg) (ho : x.Open) (hp : x.prefilled = true) :
    x.stage = .over := by
  have hg : x.gives = true ∧ x.kept = true := by simpa [Deal.prefilled] using hp
  obtain ⟨-, ho⟩ := ho
  simp only [hg.1, hg.2, if_true] at ho
  rcases ho with hst | hst | hst
  · simp [Fits, hst, hp] at h
  · simp [Fits, hst] at h
  · exact hst

/-- **Nothing is done twice**: a move leaves its mark, and finds that it was not there. -/
theorem has_next {mv : Move P M} (h : x.Sane) (hn : x.next mv = some y) (k : Mark) :
    (y.has k).toNat = (x.has k).toNat + if mv.mark = some k then 1 else 0 := by
  obtain ⟨hlone, hmet, hblank, hfull, hheap, hempty⟩ := h
  obtain ⟨owner, partner, gives, kept, msg, stage⟩ := x
  simp only [prefilled] at *
  cases mv <;> simp only [Deal.next] at hn <;> (repeat' split at hn) <;> cases hn <;>
    cases k <;> cases gives <;> cases kept <;> cases partner <;> cases msg <;>
    simp_all [has, Move.mark, prefilled]

theorem mark_shown {mv : Move P M} : mv.mark = some .shown ↔ mv = .publish := by
  cases mv <;> simp [Move.mark]

theorem mark_freed {mv : Move P M} : mv.mark = some .freed ↔ mv = .discard ∨ mv = .free := by
  cases mv <;> simp [Move.mark]

theorem meet_stage {q : P} (hn : x.next (.meet q) = some y) : x.stage = .offered := by
  simp only [next] at hn
  split at hn
  · assumption
  · cases hn

theorem withdraw_stage (hn : x.next .withdraw = some y) : x.stage = .offered := by
  simp only [next] at hn
  split at hn
  · assumption
  · cases hn

theorem move_of_store {mv : Move P M} (hst : x.stage = .store) (hn : x.next mv = some y) :
    ∃ m, mv = .store m := by
  cases mv <;> simp [next, hst] at hn
  exact ⟨_, rfl⟩

theorem publish_stage (hn : x.next .publish = some y) : x.stage = .publish := by
  simp only [next] at hn
  split at hn
  · assumption
  · cases hn

theorem Sane.met_of_live (h : x.Sane) (hl : x.Live) : x.partner ≠ none := fun hno => hl (h.lone hno)

theorem Awaited.live (h : x.Awaited) : x.Live := by
  rcases h.2 with hst | ⟨-, hst | hst⟩ <;> simp [Live, hst]

theorem Sane.unmet (h : x.Sane) (hst : x.stage = .offered ∨ x.stage = .withdrawn) :
    x.partner = none :=
  Classical.byContradiction fun hm => hst.elim (h.met hm).1 (h.met hm).2

/-- Before anybody comes the moves are the owner's. -/
theorem Sane.actor_of_unmet (h : x.Sane) (hm : x.partner = none) {mv : Move P M}
    (hn : x.next mv = some y) (hmv : ∀ q, mv ≠ .meet q) : x.actor mv = some x.owner := by
  rcases h.lone hm with hst | hst | hst
  · cases mv <;> simp [next, hst] at hn <;> first | rfl | exact absurd rfl (hmv _)
  · exact (actor_of_next hn).2.2.2 hst
  · rw [next_over hst] at hn
    cases hn

/-- A slot is freed by its owner, if nobody has come, and else by who takes. -/
theorem Sane.freed (h : x.Sane) {mv : Move P M} (hmv : mv = .discard ∨ mv = .free)
    (hn : x.next mv = some y) {q : P} (ha : x.actor mv = some q) :
    x.kept = false ∧ (x.partner = none ∧ x.owner = q ∨ x.partner ≠ none ∧ x.taker = some q) := by
  rcases hmv with rfl | rfl
  · simp only [Deal.next] at hn
    split at hn
    · rename_i hst
      exact ⟨hst.2, .inl ⟨h.unmet (.inl hst.1), Option.some.inj ha⟩⟩
    · cases hn
  · simp only [Deal.next] at hn
    split at hn
    · rename_i hst
      rcases hst with hst | ⟨hst, hk⟩
      · refine ⟨h.heap hst, .inr ⟨h.met_of_live (by simp [Live, hst]), ?_⟩⟩
        simpa [actor, hst] using ha
      · exact ⟨hk, .inl ⟨h.unmet (.inr hst), by simpa [actor, hst] using ha⟩⟩
    · cases hn

theorem Sane.next {mv : Move P M} (h : x.Sane) (hn : x.next mv = some y) : y.Sane := by
  obtain ⟨hlone, hmet, hblank, hfull, hheap, hempty⟩ := h
  cases mv with
  | free =>
    simp only [Deal.next] at hn
    split at hn <;> cases hn
    rename_i hst
    rcases hst with hst | ⟨hst, hk⟩ <;> constructor <;> simp_all [prefilled]
  | _ =>
    simp only [Deal.next] at hn
    repeat' split at hn
    all_goals cases hn
    all_goals constructor <;> simp_all [prefilled]

/-- The message is fixed when it is stored. -/
theorem next_msg {mv : Move P M} (hn : x.next mv = some y) (hst : x.stage ≠ .store) :
    y.msg = x.msg := by
  unfold next at hn
  repeat' split at hn
  all_goals cases hn
  all_goals first | rfl | exact absurd ‹_› hst

end Deal

end CrossbeamChannel.Lib
