import CrossbeamChannel.Flavors.ArrayWrap
import Mathlib.Data.List.Induction

/-!
# The array flavor with wrapping counters, one call at a time

One thread makes any number of calls on a channel with `w`-bit words, each to its end. The
words may wrap any number of times; what the calls return is what a bounded queue returns,
the loops decide in their first iteration, and `drop` finds exactly the messages of the queue.

`Holds` is the state between two calls: the queue, and how many messages have left it.
-/

namespace CrossbeamChannel.ArrayFlavor

variable {T : Type}

/-! ## The calls -/

/-- The calls, each a public operation. -/
inductive Op (T : Type) where
  | trySend (msg : T)
  | tryRecv
  | len
  | isEmpty
  | isFull

/-- What they return. -/
inductive Res (T : Type) where
  | sent
  | full (msg : T)
  | sendDisconnected (msg : T)
  | received (msg : Option T)
  | empty
  | recvDisconnected
  | len (n : Nat)
  | isEmpty (b : Bool)
  | isFull (b : Bool)

/-- The step goes back to the top of a loop, and not because a `compare_exchange_weak` failed
    spuriously. -/
def Pc.restarts (spurious : Bool) : Pc T → Pc T → Bool
  | .sendDisconnected, .sendTail => false
  | .sendCas _ _, .sendTail | .recvCas _ _, .recvHead => !spurious
  | _, .sendTail | _, .recvHead | _, .lenTail => true
  | _, _ => false

namespace Channel

/-- A thread that is alone gets from one pc to another, and goes back to the top of a loop `n`
    times. -/
inductive Runs : Channel T → Pc T → Nat → Channel T → Pc T → Prop where
  | refl {ch : Channel T} {pc : Pc T} : Runs ch pc 0 ch pc
  | step {ch ch₁ ch' : Channel T} {pc pc₁ pc' : Pc T} {spurious : Bool} {ev : Event T} {n : Nat}
      (h : ch.step spurious pc = some (ch₁, pc₁, ev)) (rest : Runs ch₁ pc₁ n ch' pc') :
      Runs ch pc ((pc.restarts spurious pc₁).toNat + n) ch' pc'

/-- The calls to their ends. `try_send` is `start_send`, and `write` if there is a token, and
    `try_recv` likewise. -/
inductive Does : Channel T → Op T → Nat → Res T → Channel T → Prop where
  | sent {ch ch₁ ch₂ : Channel T} {token : ArrayToken} {pc : Pc T} {msg : T} {n m : Nat}
      (start : Runs ch .sendDisconnected n ch₁ (.sent token))
      (call : (Pc.sent token).call (.write msg) = some pc) (write : Runs ch₁ pc m ch₂ .written) :
      Does ch (.trySend msg) (n + m) .sent ch₂
  | sendDisconnected {ch ch₁ ch₂ : Channel T} {token : ArrayToken} {pc : Pc T} {msg msg' : T}
      {n m : Nat} (start : Runs ch .sendDisconnected n ch₁ (.sent token))
      (call : (Pc.sent token).call (.write msg) = some pc)
      (write : Runs ch₁ pc m ch₂ (.writeErr msg')) :
      Does ch (.trySend msg) (n + m) (.sendDisconnected msg') ch₂
  | full {ch ch₁ : Channel T} {msg : T} {n : Nat} (start : Runs ch .sendDisconnected n ch₁ .full) :
      Does ch (.trySend msg) n (.full msg) ch₁
  | received {ch ch₁ ch₂ : Channel T} {token : ArrayToken} {pc : Pc T} {msg : Option T} {n m : Nat}
      (start : Runs ch .recvHead n ch₁ (.received token))
      (call : (Pc.received token).call .read = some pc) (read : Runs ch₁ pc m ch₂ (.readOk msg)) :
      Does ch .tryRecv (n + m) (.received msg) ch₂
  | recvDisconnected {ch ch₁ ch₂ : Channel T} {token : ArrayToken} {pc : Pc T} {n m : Nat}
      (start : Runs ch .recvHead n ch₁ (.received token))
      (call : (Pc.received token).call .read = some pc) (read : Runs ch₁ pc m ch₂ .readErr) :
      Does ch .tryRecv (n + m) .recvDisconnected ch₂
  | empty {ch ch₁ : Channel T} {n : Nat} (start : Runs ch .recvHead n ch₁ .empty) :
      Does ch .tryRecv n .empty ch₁
  | len {ch ch₁ : Channel T} {n k : Nat} (run : Runs ch .lenTail n ch₁ (.len k)) :
      Does ch .len n (.len k) ch₁
  | isEmpty {ch ch₁ : Channel T} {n : Nat} {b : Bool} (run : Runs ch .emptyHead n ch₁ (.isEmpty b)) :
      Does ch .isEmpty n (.isEmpty b) ch₁
  | isFull {ch ch₁ : Channel T} {n : Nat} {b : Bool} (run : Runs ch .fullTail n ch₁ (.isFull b)) :
      Does ch .isFull n (.isFull b) ch₁

/-- Any number of calls, one after the other, with what they return. -/
inductive Plays (ch : Channel T) : List (Op T × Res T) → Nat → Channel T → Prop where
  | nil : Plays ch [] 0 ch
  | snoc {ch₁ ch₂ : Channel T} {log : List (Op T × Res T)} {op : Op T} {res : Res T} {n m : Nat}
      (before : Plays ch log n ch₁) (call : Does ch₁ op m res ch₂) :
      Plays ch (log ++ [(op, res)]) (n + m) ch₂

end Channel

/-! ## The queue -/

/-- What a queue of capacity `cap` answers, and how it goes on. -/
def answer (cap : Nat) (q : List T) : Op T → Res T × List T
  | .trySend msg => if q.length < cap then (.sent, q ++ [msg]) else (.full msg, q)
  | .tryRecv =>
      match q with
      | [] => (.empty, [])
      | msg :: q => (.received (some msg), q)
  | .len => (.len q.length, q)
  | .isEmpty => (.isEmpty q.isEmpty, q)
  | .isFull => (.isFull (q.length = cap), q)

/-- What it answers to one call after the other. -/
def answers (cap : Nat) (q : List T) : List (Op T) → List (Res T) × List T
  | [] => ([], q)
  | op :: ops =>
      let first := answer cap q op
      let rest := answers cap first.2 ops
      (first.1 :: rest.1, rest.2)

theorem answers_snoc (cap : Nat) (q : List T) (ops : List (Op T)) (op : Op T) :
    answers cap q (ops ++ [op]) =
      ((answers cap q ops).1 ++ [(answer cap (answers cap q ops).2 op).1],
        (answer cap (answers cap q ops).2 op).2) := by
  induction ops generalizing q with
  | nil => rfl
  | cons first ops ih => simp only [List.cons_append, answers, ih]

/-! ## Between two calls -/

/-- The channel holds the messages `q`, after `r` messages have left it. -/
structure Holds (ch : Channel T) (w r : Nat) (q : List T) : Prop where
  geo : ch.Wrapping w
  connected : ch.isDisconnected = false
  head : ch.head = headStamp ch.cap ch.oneLap r % 2 ^ w
  tail : ch.tail = tailStamp ch.cap ch.oneLap (r + q.length) % 2 ^ w
  room : q.length ≤ ch.cap
  /-- The slots of one round, from the head on: first the filled ones, then the free ones. -/
  slot : ∀ i, i < ch.cap → ch.buffer ((r + i) % ch.cap) =
    ⟨(if i < q.length then headStamp ch.cap ch.oneLap (r + i)
      else tailStamp ch.cap ch.oneLap (r + i)) % 2 ^ w, q[i]?⟩

theorem round_inj {cap r i j : Nat} (hi : i < cap) (hj : j < cap) :
    (r + i) % cap = (r + j) % cap ↔ i = j := by
  have hc : 0 < cap := by omega
  have hr := Nat.mod_lt r hc
  rw [add_mod_cap hc hi.le, add_mod_cap hc hj.le]
  split_ifs <;> omega

namespace Holds

variable {ch : Channel T} {w r : Nat} {q : List T}

/-- The slot at the tail, when there is room. -/
theorem free_slot (h : Holds ch w r q) (hlt : q.length < ch.cap) :
    ch.buffer (ch.index ch.tail) = ⟨ch.tail, none⟩ := by
  rw [h.tail, h.geo.index_tail, h.slot _ hlt, if_neg (lt_irrefl _), List.getElem?_eq_none (le_refl _)]

/-- The slot at the tail, when there is none. -/
theorem full_slot (h : Holds ch w r q) (hfull : q.length = ch.cap) :
    ch.buffer (ch.index ch.tail) = ⟨ch.head, q[0]?⟩ := by
  have hpos := h.geo.pos
  have hslot := h.slot 0 hpos
  rw [if_pos (by omega), Nat.add_zero] at hslot
  rw [h.tail, h.geo.index_tail, h.head, hfull, Nat.add_mod_right, hslot]

/-- The slot at the head, when there is a message. -/
theorem filled_slot (h : Holds ch w r q) (hne : 0 < q.length) :
    ch.buffer (ch.index ch.head) = ⟨ch.head, q[0]?⟩ := by
  have hpos := h.geo.pos
  have hslot := h.slot 0 hpos
  rw [if_pos hne, Nat.add_zero] at hslot
  rw [h.head, h.geo.index_head, hslot]

/-- The slot at the head, when there is none. -/
theorem empty_slot (h : Holds ch w r q) (hnil : q.length = 0) :
    ch.buffer (ch.index ch.head) = ⟨ch.tail, none⟩ := by
  have hpos := h.geo.pos
  have hslot := h.slot 0 hpos
  rw [if_neg (by omega), Nat.add_zero, List.getElem?_eq_none (by omega)] at hslot
  rw [h.head, h.geo.index_head, h.tail, hnil, Nat.add_zero, hslot]

/-- "The head lags one lap behind the tail." -/
theorem full_iff (h : Holds ch w r q) :
    ch.wrappingAdd ch.head ch.oneLap = ch.tail ↔ q.length = ch.cap := by
  rw [h.head, h.tail, h.geo.wrappingAdd_mod, h.geo.full_iff h.room]

/-- "The tail lags one lap behind the head." -/
theorem empty_iff (h : Holds ch w r q) :
    ch.wrappingAdd ch.tail ch.oneLap = ch.head ↔ q.length = 0 := by
  rw [h.head, h.tail, h.geo.wrappingAdd_mod, h.geo.empty_iff h.room]

theorem head_ne_tail (h : Holds ch w r q) (hfull : q.length = ch.cap) : ch.tail ≠ ch.head := by
  rw [h.head, h.tail, hfull]
  exact (h.geo.head_ne_tail r).symm

theorem tail_ne_head (h : Holds ch w r q) (hnil : q.length = 0) : ch.head ≠ ch.tail := by
  rw [h.head, h.tail, hnil]
  exact (h.geo.tail_ne_head r).symm

theorem lenOf_eq (h : Holds ch w r q) : ch.lenOf ch.tail ch.head = q.length := by
  rw [h.head, h.tail, h.geo.lenOf_eq h.room]

end Holds

/-! ## `start_send` and `start_recv` -/

/-- What a sender that is alone has loaded. -/
def SendPc (ch : Channel T) (q : List T) : Pc T → Prop
  | .sendDisconnected | .sendTail => True
  | .sendStamp tail => tail = ch.tail
  | .sendCas tail stamp => tail = ch.tail ∧ stamp = tail ∧ q.length < ch.cap
  | .sendHead tail => tail = ch.tail ∧ q.length = ch.cap
  | _ => False

/-- What a receiver that is alone has loaded. -/
def RecvPc (ch : Channel T) (q : List T) : Pc T → Prop
  | .recvHead => True
  | .recvStamp head => head = ch.head
  | .recvCas head stamp => head = ch.head ∧ stamp = head ∧ 0 < q.length
  | .recvTail head => head = ch.head ∧ q.length = 0
  | .recvDisconnected _ _ => q.length = 0
  | _ => False

/-- The position at the tail is reserved. -/
def Channel.reserve (ch : Channel T) : Channel T := { ch with tail := ch.advance ch.tail }

/-- The position at the head is claimed. -/
def Channel.claim (ch : Channel T) : Channel T := { ch with head := ch.advance ch.head }

def Channel.sendToken (ch : Channel T) : ArrayToken :=
  ⟨some (ch.index ch.tail), ch.wrappingAdd ch.tail ch.oneLap⟩

def Channel.recvToken (ch : Channel T) : ArrayToken :=
  ⟨some (ch.index ch.head), ch.wrappingAdd ch.head ch.oneLap⟩

section

variable {ch ch₁ : Channel T} {w r n : Nat} {q : List T} {pc pc₁ : Pc T} {spurious : Bool}
  {ev : Event T}

/-- A step of `start_send` goes on, or decides as the queue does. -/
theorem Holds.send_step (h : Holds ch w r q) (hp : SendPc ch q pc)
    (hs : ch.step spurious pc = some (ch₁, pc₁, ev)) :
    pc.restarts spurious pc₁ = false ∧
      ((ch₁ = ch ∧ SendPc ch q pc₁) ∨ (q.length = ch.cap ∧ ch₁ = ch ∧ pc₁ = .full) ∨
        (q.length < ch.cap ∧ ch₁ = ch.reserve ∧ pc₁ = .sent ch.sendToken)) := by
  have hroom := h.room
  cases pc with
  | sendDisconnected =>
    simp only [Channel.step, h.connected] at hs
    cases hs
    exact ⟨rfl, .inl ⟨rfl, trivial⟩⟩
  | sendTail =>
    cases hs
    exact ⟨rfl, .inl ⟨rfl, rfl⟩⟩
  | sendStamp tail =>
    obtain rfl := hp
    rcases Nat.lt_or_ge q.length ch.cap with hlt | hge
    · simp only [Channel.step, h.free_slot hlt, if_true] at hs
      cases hs
      exact ⟨rfl, .inl ⟨rfl, rfl, rfl, hlt⟩⟩
    · have hfull : q.length = ch.cap := by omega
      simp only [Channel.step, h.full_slot hfull, if_neg (h.head_ne_tail hfull),
        if_pos (h.full_iff.mpr hfull)] at hs
      cases hs
      exact ⟨rfl, .inl ⟨rfl, rfl, hfull⟩⟩
  | sendCas tail stamp =>
    obtain ⟨rfl, rfl, hlt⟩ := hp
    simp only [Channel.step, true_and] at hs
    cases spurious <;> cases hs
    · exact ⟨rfl, .inr (.inr ⟨hlt, rfl, rfl⟩)⟩
    · exact ⟨rfl, .inl ⟨rfl, trivial⟩⟩
  | sendHead tail =>
    obtain ⟨rfl, hfull⟩ := hp
    simp only [Channel.step, if_pos (h.full_iff.mpr hfull)] at hs
    cases hs
    exact ⟨rfl, .inr (.inl ⟨hfull, rfl, rfl⟩)⟩
  | _ => exact hp.elim

/-- A step of `start_recv` goes on, or decides as the queue does. -/
theorem Holds.recv_step (h : Holds ch w r q) (hp : RecvPc ch q pc)
    (hs : ch.step spurious pc = some (ch₁, pc₁, ev)) :
    pc.restarts spurious pc₁ = false ∧
      ((ch₁ = ch ∧ RecvPc ch q pc₁) ∨ (q.length = 0 ∧ ch₁ = ch ∧ pc₁ = .empty) ∨
        (0 < q.length ∧ ch₁ = ch.claim ∧ pc₁ = .received ch.recvToken)) := by
  cases pc with
  | recvHead =>
    cases hs
    exact ⟨rfl, .inl ⟨rfl, rfl⟩⟩
  | recvStamp head =>
    obtain rfl := hp
    rcases Nat.eq_zero_or_pos q.length with hnil | hne
    · simp only [Channel.step, h.empty_slot hnil, if_neg (h.tail_ne_head hnil),
        if_pos (h.empty_iff.mpr hnil)] at hs
      cases hs
      exact ⟨rfl, .inl ⟨rfl, rfl, hnil⟩⟩
    · simp only [Channel.step, h.filled_slot hne, if_true] at hs
      cases hs
      exact ⟨rfl, .inl ⟨rfl, rfl, rfl, hne⟩⟩
  | recvCas head stamp =>
    obtain ⟨rfl, rfl, hne⟩ := hp
    simp only [Channel.step, true_and] at hs
    cases spurious <;> cases hs
    · exact ⟨rfl, .inr (.inr ⟨hne, rfl, rfl⟩)⟩
    · exact ⟨rfl, .inl ⟨rfl, trivial⟩⟩
  | recvTail head =>
    obtain ⟨rfl, hnil⟩ := hp
    simp only [Channel.step, if_pos (h.empty_iff.mpr hnil)] at hs
    cases hs
    exact ⟨rfl, .inl ⟨rfl, hnil⟩⟩
  | recvDisconnected head tail =>
    simp only [Channel.step, h.connected] at hs
    cases hs
    exact ⟨rfl, .inr (.inl ⟨hp, rfl, rfl⟩)⟩
  | _ => exact hp.elim

/-- `start_send` decides in its first iteration, and as the queue does. -/
theorem Holds.startSend {ch' : Channel T} {pc' : Pc T} (h : Holds ch w r q)
    (hr : Channel.Runs ch pc n ch' pc') (hp : SendPc ch q pc) :
    n = 0 ∧ ((ch' = ch ∧ SendPc ch q pc') ∨ (q.length = ch.cap ∧ ch' = ch ∧ pc' = .full) ∨
      (q.length < ch.cap ∧ ch' = ch.reserve ∧ pc' = .sent ch.sendToken)) := by
  induction hr with
  | refl => exact ⟨rfl, .inl ⟨rfl, hp⟩⟩
  | step hs rest ih =>
    obtain ⟨hrestarts, hgoes⟩ := h.send_step hp hs
    rw [hrestarts]
    rcases hgoes with ⟨rfl, hp₁⟩ | ⟨hfull, rfl, rfl⟩ | ⟨hlt, rfl, rfl⟩
    · obtain ⟨rfl, hrest⟩ := ih h hp₁
      exact ⟨rfl, hrest⟩
    · cases rest with
      | refl => exact ⟨rfl, .inr (.inl ⟨hfull, rfl, rfl⟩)⟩
      | step hs _ => cases hs
    · cases rest with
      | refl => exact ⟨rfl, .inr (.inr ⟨hlt, rfl, rfl⟩)⟩
      | step hs _ => cases hs

/-- `start_recv` decides in its first iteration, and as the queue does. -/
theorem Holds.startRecv {ch' : Channel T} {pc' : Pc T} (h : Holds ch w r q)
    (hr : Channel.Runs ch pc n ch' pc') (hp : RecvPc ch q pc) :
    n = 0 ∧ ((ch' = ch ∧ RecvPc ch q pc') ∨ (q.length = 0 ∧ ch' = ch ∧ pc' = .empty) ∨
      (0 < q.length ∧ ch' = ch.claim ∧ pc' = .received ch.recvToken)) := by
  induction hr with
  | refl => exact ⟨rfl, .inl ⟨rfl, hp⟩⟩
  | step hs rest ih =>
    obtain ⟨hrestarts, hgoes⟩ := h.recv_step hp hs
    rw [hrestarts]
    rcases hgoes with ⟨rfl, hp₁⟩ | ⟨hnil, rfl, rfl⟩ | ⟨hne, rfl, rfl⟩
    · obtain ⟨rfl, hrest⟩ := ih h hp₁
      exact ⟨rfl, hrest⟩
    · cases rest with
      | refl => exact ⟨rfl, .inr (.inl ⟨hnil, rfl, rfl⟩)⟩
      | step hs _ => cases hs
    · cases rest with
      | refl => exact ⟨rfl, .inr (.inr ⟨hne, rfl, rfl⟩)⟩
      | step hs _ => cases hs

end

/-! ## `write` and `read` -/

section

variable {ch ch' : Channel T} {w r n : Nat} {q : List T} {msg : T}

/-- What `write` makes of the slot at the tail. -/
def Channel.filled (ch : Channel T) (msg : T) : Channel T :=
  (ch.reserve.setMsg (ch.index ch.tail) (some msg)).setStamp (ch.index ch.tail)
    (ch.wrappingAdd ch.tail ch.oneLap)

/-- What `read` makes of the slot at the head. -/
def Channel.emptied (ch : Channel T) : Channel T :=
  (ch.claim.setMsg (ch.index ch.head) none).setStamp (ch.index ch.head)
    (ch.wrappingAdd ch.head ch.oneLap)

theorem Channel.filled_buffer (ch : Channel T) (msg : T) : (ch.filled msg).buffer =
    Function.update ch.buffer (ch.index ch.tail) ⟨ch.wrappingAdd ch.tail ch.oneLap, some msg⟩ := by
  simp [filled, reserve, setMsg, setStamp]

theorem Channel.emptied_buffer (ch : Channel T) : ch.emptied.buffer =
    Function.update ch.buffer (ch.index ch.head) ⟨ch.wrappingAdd ch.head ch.oneLap, none⟩ := by
  simp [emptied, claim, setMsg, setStamp]

/-- A completed send puts its message at the end of the queue. -/
theorem Holds.push (h : Holds ch w r q) (hlt : q.length < ch.cap) (msg : T) :
    Holds (ch.filled msg) w r (q ++ [msg]) where
  geo := ⟨h.geo.pos, h.geo.le, h.geo.laps, h.geo.wrap⟩
  connected := h.connected
  head := h.head
  tail := by
    change ch.advance ch.tail = _
    rw [h.tail, h.geo.advance_tail, List.length_append, List.length_singleton, Nat.add_assoc]
    rfl
  room := by
    rw [List.length_append, List.length_singleton]
    exact hlt
  slot := by
    intro i hi
    change i < ch.cap at hi
    rw [Channel.filled_buffer, h.tail, h.geo.index_tail]
    change Function.update _ _ _ ((r + i) % ch.cap) = _
    by_cases hin : i = q.length
    · subst hin
      rw [Function.update_self, h.geo.wrappingAdd_mod, tailStamp_add]
      simp [Channel.filled, Channel.reserve, Channel.setMsg, Channel.setStamp]
    · rw [Function.update_of_ne (fun heq => hin ((round_inj hi hlt).mp heq)), h.slot i hi]
      have hfront : (i < (q ++ [msg]).length) ↔ i < q.length := by
        rw [List.length_append, List.length_singleton]
        omega
      have hmsg : (q ++ [msg])[i]? = q[i]? := by
        rcases Nat.lt_or_ge i q.length with hlt' | hge
        · exact List.getElem?_append_left hlt'
        · rw [List.getElem?_eq_none hge, List.getElem?_eq_none]
          rw [List.length_append, List.length_singleton]
          omega
      simp only [hfront, hmsg]
      rfl

/-- A completed receive takes the message at the head of the queue. -/
theorem Holds.pop (h : Holds ch w r (msg :: q)) : Holds ch.emptied w (r + 1) q where
  geo := ⟨h.geo.pos, h.geo.le, h.geo.laps, h.geo.wrap⟩
  connected := h.connected
  head := by
    change ch.advance ch.head = _
    rw [h.head, h.geo.advance_head]
    rfl
  tail := by
    change ch.tail = _
    rw [h.tail, List.length_cons, show r + 1 + q.length = r + (q.length + 1) by omega]
    rfl
  room := Nat.le_of_succ_le h.room
  slot := by
    intro i hi
    change i < ch.cap at hi
    have hroom : q.length + 1 ≤ ch.cap := h.room
    rw [Channel.emptied_buffer, h.head, h.geo.index_head, show r + 1 + i = r + (i + 1) by omega]
    change Function.update _ _ _ ((r + (i + 1)) % ch.cap) = _
    by_cases hlast : i + 1 = ch.cap
    · -- The slot that was read out, free for the next round.
      rw [hlast, Nat.add_mod_right, Function.update_self, h.geo.wrappingAdd_mod,
        headStamp_add h.geo.pos, if_neg (by omega), List.getElem?_eq_none (by omega)]
      rfl
    · have hne : (r + (i + 1)) % ch.cap ≠ r % ch.cap := fun heq => by
        have := (round_inj (i := i + 1) (j := 0) (by omega) h.geo.pos).mp heq
        omega
      rw [Function.update_of_ne hne, h.slot (i + 1) (by omega)]
      simp only [List.length_cons, Nat.add_lt_add_iff_right, List.getElem?_cons_succ]
      rfl

/-- `write` runs to its end. -/
theorem write_runs {i stamp : Nat} {pc' : Pc T} (hend : pc'.call .ret = some .idle)
    (hr : Channel.Runs ch (.writeMsg i stamp msg) n ch' pc') :
    n = 0 ∧ pc' = .written ∧ ch' = (ch.setMsg i (some msg)).setStamp i stamp := by
  cases hr with
  | refl => cases hend
  | step hs rest =>
    cases hs
    cases rest with
    | refl => cases hend
    | step hs rest =>
      cases hs
      cases rest with
      | refl => exact ⟨rfl, rfl, rfl⟩
      | step hs _ => cases hs

/-- `read` runs to its end. -/
theorem read_runs {i stamp : Nat} {pc' : Pc T} (hend : pc'.call .ret = some .idle)
    (hr : Channel.Runs ch (.readMsg i stamp) n ch' pc') :
    n = 0 ∧ pc' = .readOk (ch.buffer i).msg ∧ ch' = (ch.setMsg i none).setStamp i stamp := by
  cases hr with
  | refl => cases hend
  | step hs rest =>
    cases hs
    cases rest with
    | refl => cases hend
    | step hs rest =>
      cases hs
      cases rest with
      | refl => exact ⟨rfl, rfl, rfl⟩
      | step hs _ => cases hs

/-- `len` runs to its end. -/
theorem Holds.len_runs (h : Holds ch w r q) {k : Nat} (hr : Channel.Runs ch .lenTail n ch' (.len k)) :
    n = 0 ∧ k = q.length ∧ ch' = ch := by
  cases hr with
  | step hs rest =>
    cases hs
    cases rest with
    | step hs rest =>
      cases hs
      cases rest with
      | step hs rest =>
        simp only [Channel.step, if_true, h.lenOf_eq] at hs
        cases hs
        cases rest with
        | refl => exact ⟨rfl, rfl, rfl⟩
        | step hs _ => cases hs

/-- `is_empty` runs to its end. -/
theorem Holds.isEmpty_runs (h : Holds ch w r q) {b : Bool}
    (hr : Channel.Runs ch .emptyHead n ch' (.isEmpty b)) : n = 0 ∧ b = q.isEmpty ∧ ch' = ch := by
  cases hr with
  | step hs rest =>
    cases hs
    cases rest with
    | step hs rest =>
      cases hs
      cases rest with
      | refl =>
        refine ⟨rfl, ?_, rfl⟩
        simp only [h.empty_iff]
        cases q <;> rfl
      | step hs _ => cases hs

/-- `is_full` runs to its end. -/
theorem Holds.isFull_runs (h : Holds ch w r q) {b : Bool}
    (hr : Channel.Runs ch .fullTail n ch' (.isFull b)) :
    n = 0 ∧ b = decide (q.length = ch.cap) ∧ ch' = ch := by
  cases hr with
  | step hs rest =>
    cases hs
    cases rest with
    | step hs rest =>
      cases hs
      cases rest with
      | refl => exact ⟨rfl, by simp only [h.full_iff], rfl⟩
      | step hs _ => cases hs

/-! ## Whole calls -/

/-- **A call answers as the queue does**, in the first iteration of its loops. -/
theorem Holds.does (h : Holds ch w r q) {op : Op T} {res : Res T} (hd : Channel.Does ch op n res ch') :
    n = 0 ∧ res = (answer ch.cap q op).1 ∧ ch'.cap = ch.cap ∧
      ∃ r', Holds ch' w r' (answer ch.cap q op).2 := by
  cases hd with
  | sent start call write =>
    obtain ⟨rfl, ⟨-, hp⟩ | ⟨-, -, hp⟩ | ⟨hlt, rfl, hp⟩⟩ := h.startSend start trivial
    · exact hp.elim
    · cases hp
    · cases hp
      cases call
      obtain ⟨rfl, -, rfl⟩ := write_runs rfl write
      rw [answer, if_pos hlt]
      exact ⟨rfl, rfl, rfl, r, h.push hlt _⟩
  | sendDisconnected start call write =>
    obtain ⟨rfl, ⟨-, hp⟩ | ⟨-, -, hp⟩ | ⟨hlt, rfl, hp⟩⟩ := h.startSend start trivial
    · exact hp.elim
    · cases hp
    · cases hp
      cases call
      obtain ⟨-, hpc, -⟩ := write_runs rfl write
      cases hpc
  | full start =>
    obtain ⟨rfl, ⟨-, hp⟩ | ⟨hfull, rfl, -⟩ | ⟨-, -, hp⟩⟩ := h.startSend start trivial
    · exact hp.elim
    · rw [answer, if_neg (by omega)]
      exact ⟨rfl, rfl, rfl, r, h⟩
    · cases hp
  | received start call read =>
    obtain ⟨rfl, ⟨-, hp⟩ | ⟨-, -, hp⟩ | ⟨hne, rfl, hp⟩⟩ := h.startRecv start trivial
    · exact hp.elim
    · cases hp
    · cases hp
      cases call
      obtain ⟨rfl, hpc, rfl⟩ := read_runs rfl read
      cases hpc
      have hslot := h.filled_slot hne
      cases q with
      | nil => cases hne
      | cons x q =>
        refine ⟨rfl, ?_, rfl, r + 1, h.pop⟩
        change Res.received (ch.buffer (ch.index ch.head)).msg = _
        rw [hslot]
        rfl
  | recvDisconnected start call read =>
    obtain ⟨rfl, ⟨-, hp⟩ | ⟨-, -, hp⟩ | ⟨hne, rfl, hp⟩⟩ := h.startRecv start trivial
    · exact hp.elim
    · cases hp
    · cases hp
      cases call
      obtain ⟨-, hpc, -⟩ := read_runs rfl read
      cases hpc
  | empty start =>
    obtain ⟨rfl, ⟨-, hp⟩ | ⟨hnil, rfl, -⟩ | ⟨-, -, hp⟩⟩ := h.startRecv start trivial
    · exact hp.elim
    · obtain rfl := List.eq_nil_of_length_eq_zero hnil
      exact ⟨rfl, rfl, rfl, r, h⟩
    · cases hp
  | len run =>
    obtain ⟨rfl, rfl, rfl⟩ := h.len_runs run
    exact ⟨rfl, rfl, rfl, r, h⟩
  | isEmpty run =>
    obtain ⟨rfl, rfl, rfl⟩ := h.isEmpty_runs run
    exact ⟨rfl, rfl, rfl, r, h⟩
  | isFull run =>
    obtain ⟨rfl, rfl, rfl⟩ := h.isFull_runs run
    exact ⟨rfl, rfl, rfl, r, h⟩

/-- One step further, and not back to the top of a loop. -/
theorem Channel.Runs.forward {ch₁ : Channel T} {pc pc₁ pc' : Pc T} {ev : Event T}
    (hs : ch.step false pc = some (ch₁, pc₁, ev)) (hr : pc.restarts false pc₁ = false)
    (rest : Channel.Runs ch₁ pc₁ 0 ch' pc') : Channel.Runs ch pc 0 ch' pc' := by
  have hrun := Channel.Runs.step hs rest
  rwa [hr] at hrun

/-- Every call comes to its end. -/
theorem Holds.exists_does (h : Holds ch w r q) (op : Op T) :
    ∃ res ch', Channel.Does ch op 0 res ch' := by
  have hroom := h.room
  cases op with
  | trySend msg =>
    have hstart : ch.step false .sendDisconnected = some (ch, .sendTail, .silent) := by
      simp [Channel.step, h.connected]
    rcases Nat.lt_or_ge q.length ch.cap with hlt | hge
    · have hstamp : ch.step false (.sendStamp ch.tail) =
          some (ch, .sendCas ch.tail ch.tail, .silent) := by
        simp [Channel.step, h.free_slot hlt]
      have hcas : ch.step false (.sendCas ch.tail ch.tail) =
          some (ch.reserve, .sent ch.sendToken, .tailCas) := by
        simp [Channel.step, Channel.reserve, Channel.sendToken]
      have hsend : Channel.Runs ch .sendDisconnected 0 ch.reserve (.sent ch.sendToken) :=
        .forward hstart rfl (.forward rfl rfl (.forward hstamp rfl (.forward hcas rfl .refl)))
      have hwrite : Channel.Runs ch.reserve
          (.writeMsg (ch.index ch.tail) (ch.wrappingAdd ch.tail ch.oneLap) msg) 0 (ch.filled msg)
          .written := .forward rfl rfl (.forward rfl rfl .refl)
      exact ⟨_, _, .sent hsend rfl hwrite⟩
    · have hfull : q.length = ch.cap := by omega
      have hstamp : ch.step false (.sendStamp ch.tail) =
          some (ch, .sendHead ch.tail, .silent) := by
        simp [Channel.step, h.full_slot hfull, h.head_ne_tail hfull, h.full_iff.mpr hfull]
      have hhead : ch.step false (.sendHead ch.tail) = some (ch, .full, .silent) := by
        simp [Channel.step, h.full_iff.mpr hfull]
      have hsend : Channel.Runs ch .sendDisconnected 0 ch .full :=
        .forward hstart rfl (.forward rfl rfl (.forward hstamp rfl (.forward hhead rfl .refl)))
      exact ⟨_, _, .full hsend⟩
  | tryRecv =>
    rcases Nat.eq_zero_or_pos q.length with hnil | hne
    · have hstamp : ch.step false (.recvStamp ch.head) =
          some (ch, .recvTail ch.head, .silent) := by
        simp [Channel.step, h.empty_slot hnil, h.tail_ne_head hnil, h.empty_iff.mpr hnil]
      have htail : ch.step false (.recvTail ch.head) =
          some (ch, .recvDisconnected ch.head ch.tail, .silent) := by
        simp [Channel.step, h.empty_iff.mpr hnil]
      have hempty : ch.step false (.recvDisconnected ch.head ch.tail) =
          some (ch, .empty, .silent) := by
        simp [Channel.step, h.connected]
      have hrecv : Channel.Runs ch .recvHead 0 ch .empty :=
        .forward rfl rfl (.forward hstamp rfl (.forward htail rfl (.forward hempty rfl .refl)))
      exact ⟨_, _, .empty hrecv⟩
    · have hstamp : ch.step false (.recvStamp ch.head) =
          some (ch, .recvCas ch.head ch.head, .silent) := by
        simp [Channel.step, h.filled_slot hne]
      have hcas : ch.step false (.recvCas ch.head ch.head) =
          some (ch.claim, .received ch.recvToken, .headCas) := by
        simp [Channel.step, Channel.claim, Channel.recvToken]
      have hrecv : Channel.Runs ch .recvHead 0 ch.claim (.received ch.recvToken) :=
        .forward rfl rfl (.forward hstamp rfl (.forward hcas rfl .refl))
      have hread : Channel.Runs ch.claim
          (.readMsg (ch.index ch.head) (ch.wrappingAdd ch.head ch.oneLap)) 0 ch.emptied
          (.readOk (ch.buffer (ch.index ch.head)).msg) := .forward rfl rfl (.forward rfl rfl .refl)
      exact ⟨_, _, .received hrecv rfl hread⟩
  | len =>
    have hagain : ch.step false (.lenTailAgain ch.tail ch.head) =
        some (ch, .len q.length, .silent) := by
      simp [Channel.step, h.lenOf_eq]
    have hlen : Channel.Runs ch .lenTail 0 ch (.len q.length) :=
      .forward rfl rfl (.forward rfl rfl (.forward hagain rfl .refl))
    exact ⟨_, _, .len hlen⟩
  | isEmpty =>
    have hempty : Channel.Runs ch .emptyHead 0 ch
        (.isEmpty (ch.wrappingAdd ch.tail ch.oneLap = ch.head)) :=
      .forward rfl rfl (.forward rfl rfl .refl)
    exact ⟨_, _, .isEmpty hempty⟩
  | isFull =>
    have hfull : Channel.Runs ch .fullTail 0 ch
        (.isFull (ch.wrappingAdd ch.head ch.oneLap = ch.tail)) :=
      .forward rfl rfl (.forward rfl rfl .refl)
    exact ⟨_, _, .isFull hfull⟩

/-- The laps of tail and head keep their parity, and no increment overflows. -/
structure Channel.InRange (ch : Channel T) (w : Nat) : Prop where
  tailLap : ch.tail / ch.oneLap % 2 = 0
  headLap : ch.head / ch.oneLap % 2 = 1
  tailSucc : ch.index ch.tail + 1 < ch.cap → ch.tail + 1 < 2 ^ w
  headSucc : ch.index ch.head + 1 < ch.cap → ch.head + 1 < 2 ^ w

theorem Holds.inRange (h : Holds ch w r q) : ch.InRange w where
  tailLap := by
    rw [h.tail, tailStamp, h.geo.lap_parity _ (mod_cap_lt h.geo.pos h.geo.le _)]
    omega
  headLap := by
    rw [h.head, headStamp, h.geo.lap_parity _ (mod_cap_lt h.geo.pos h.geo.le _)]
    omega
  tailSucc := by
    rw [h.tail]
    exact h.geo.succ_lt
  headSucc := by
    rw [h.head]
    exact h.geo.succ_lt

/-- `drop` drops these messages, each once, with indices that do not overflow and stay within
    the buffer. -/
structure Channel.Drops (ch : Channel T) (w : Nat) (q : List T) : Prop where
  msgs : ch.drop = q.map some
  index : ∀ i < q.length, ch.index ch.head + i < 2 ^ w ∧ ch.dropIndex i < ch.cap
  once : ∀ i < q.length, ∀ j < q.length, ch.dropIndex i = ch.dropIndex j → i = j

theorem Holds.drops (h : Holds ch w r q) : ch.Drops w q := by
  have hroom := h.room
  have hindex : ∀ i < q.length, ch.dropIndex i = (r + i) % ch.cap := by
    intro i hi
    rw [Channel.dropIndex, h.head, h.geo.index_head, add_mod_cap h.geo.pos (by omega)]
  refine ⟨List.ext_getElem? fun i => ?_, fun i hi => ⟨?_, ?_⟩, fun i hi j hj heq => ?_⟩
  · rw [Channel.drop, h.lenOf_eq, List.getElem?_map, List.getElem?_map]
    rcases Nat.lt_or_ge i q.length with hlt | hge
    · rw [List.getElem?_range hlt, Option.map_some, hindex i hlt, h.slot i (by omega),
        List.getElem?_eq_getElem hlt, Option.map_some]
    · rw [List.getElem?_eq_none (by rwa [List.length_range]), List.getElem?_eq_none hge]
      rfl
  · rw [h.head, h.geo.index_head]
    have hlt := Nat.mod_lt r h.geo.pos
    have hfour := h.geo.four_laps
    have hle := h.geo.le
    omega
  · rw [hindex i hi]
    exact Nat.mod_lt _ h.geo.pos
  · rw [hindex i hi, hindex j hj] at heq
    exact (round_inj (by omega) (by omega)).mp heq

theorem Holds.init {cap : Nat} (h : Channel.withCapacity (2 ^ w - 1) (some (2 ^ w)) cap = some ch) :
    Holds ch w 0 [] ∧ ch.cap = cap := by
  have hg := wrapping_withCapacity h
  have hfour := hg.four_laps
  have hpos := hg.lap_pos
  have hle := hg.le
  unfold Channel.withCapacity at h
  split at h <;> [split at h; skip]
  · obtain rfl := Option.some.inj h
    dsimp only at hfour hpos hle
    refine ⟨⟨hg, rfl, ?_, ?_, Nat.zero_le _, fun i hi => ?_⟩, rfl⟩
    · simp [headStamp, pack, Nat.mod_eq_of_lt (show nextPowerOfTwo cap < 2 ^ w by omega)]
    · simp [tailStamp, pack]
    · dsimp only at hi
      simp [tailStamp, pack, Nat.mod_eq_of_lt hi, Nat.div_eq_of_lt hi,
        Nat.mod_eq_of_lt (show i < 2 ^ w by omega)]
  · cases h
  · cases h

/-- What calls have returned, and what the channel holds then. -/
theorem Holds.of_plays {cap : Nat} {log : List (Op T × Res T)}
    (h : Channel.withCapacity (2 ^ w - 1) (some (2 ^ w)) cap = some ch) (hp : ch.Plays log n ch') :
    log.map Prod.snd = (answers cap [] (log.map Prod.fst)).1 ∧ n = 0 ∧ ch'.cap = cap ∧
      ∃ r, Holds ch' w r (answers cap [] (log.map Prod.fst)).2 := by
  induction hp with
  | nil =>
    obtain ⟨hinit, hcap⟩ := Holds.init h
    exact ⟨rfl, rfl, hcap, 0, hinit⟩
  | snoc before call ih =>
    obtain ⟨hres, rfl, hcap₁, r, hholds⟩ := ih
    obtain ⟨rfl, hres', hcap₂, r', hholds'⟩ := hholds.does call
    rw [hcap₁] at hres' hcap₂ hholds'
    rw [List.map_append, List.map_append, List.map_singleton, List.map_singleton, answers_snoc]
    exact ⟨by rw [hres, hres'], rfl, hcap₂, r', hholds'⟩

/-- Any calls may be made. -/
theorem exists_plays {cap : Nat}
    (h : Channel.withCapacity (2 ^ w - 1) (some (2 ^ w)) cap = some ch) (ops : List (Op T)) :
    ∃ log ch', ch.Plays log 0 ch' ∧ log.map Prod.fst = ops := by
  induction ops using List.reverseRecOn with
  | nil => exact ⟨[], ch, .nil, rfl⟩
  | append_singleton ops op ih =>
    obtain ⟨log, ch₁, hplays, rfl⟩ := ih
    obtain ⟨-, -, -, r, hholds⟩ := Holds.of_plays h hplays
    obtain ⟨res, ch₂, hdoes⟩ := hholds.exists_does op
    exact ⟨log ++ [(op, res)], ch₂, .snoc hplays hdoes, by simp⟩

/-- **The array flavor with wrapping counters is a FIFO queue of its capacity.** Any number of
    completed calls on a channel with `w`-bit words return what the queue returns; no loop goes
    round again, and the next call returns too; the laps keep their parity and no increment
    overflows; and `drop` finds exactly the messages of the queue. -/
theorem wrapping_channel_is_fifo {cap : Nat} {log : List (Op T × Res T)}
    (h : Channel.withCapacity (2 ^ w - 1) (some (2 ^ w)) cap = some ch) (hp : ch.Plays log n ch') :
    log.map Prod.snd = (answers cap [] (log.map Prod.fst)).1 ∧ n = 0 ∧
      (∀ op, ∃ res ch'', ch'.Does op 0 res ch'') ∧ ch'.InRange w ∧
      ch'.Drops w (answers cap [] (log.map Prod.fst)).2 := by
  obtain ⟨hres, hn, -, r, hholds⟩ := Holds.of_plays h hp
  exact ⟨hres, hn, hholds.exists_does, hholds.inRange, hholds.drops⟩

/-- The channel `with_capacity(1)` builds with words of three bits: every message moves `head` and `tail`
    two on, so both wrap around after four. -/
def threeBits : Channel Nat := ⟨1, 0, fun i => ⟨i, none⟩, 1, 1, false, some 8⟩

theorem wrapping_channel_is_fifo_threeBits : ∃ log ch', threeBits.Plays log 0 ch' ∧
    log.map Prod.snd = [.sent, .received (some 1), .sent, .received (some 2), .sent, .received (some 3),
      .sent, .received (some 4), .sent, .full 6, .isFull true, .received (some 5), .empty, .len 0] := by
  have h : Channel.withCapacity (2 ^ 3 - 1) (some (2 ^ 3)) 1 = some threeBits := rfl
  obtain ⟨log, ch', hplays, hops⟩ := exists_plays h [.trySend 1, .tryRecv, .trySend 2, .tryRecv, .trySend 3,
    .tryRecv, .trySend 4, .tryRecv, .trySend 5, .trySend 6, .isFull, .tryRecv, .tryRecv, .len]
  refine ⟨log, ch', hplays, ?_⟩
  rw [(wrapping_channel_is_fifo h hplays).1, hops]
  rfl

end

end CrossbeamChannel.ArrayFlavor
