import Mathlib.Logic.Function.Basic
import Owlchain.Library.Transition
import Owlchain.Vibe.WebSocket

/-! Two web sockets at the ends of a connection, a server that sends pings and a client. Their
tasks take steps in any order, and what one side writes arrives at the other in order.

Proved for every order of steps: the messages that one side has received are a beginning of
those that the other has sent; every pong passes the checks of the reader; and `close` never
returns if a message has not been received when it is called. The timer never ends a
connection whose other side is silent. -/

namespace Owlchain.Vibe

open Owlchain.Library Loop Endian

/-! ### The connection -/

inductive Side where
  | server
  | client
  deriving DecidableEq

def Side.other : Side → Side
  | .server => .client
  | .client => .server

@[simp] theorem Side.other_other (x : Side) : x.other.other = x := by cases x <;> rfl

theorem Side.forall_of {P : Side → Prop} (x : Side) (h : P x) (hother : P x.other) : ∀ y, P y := by
  cases x
  · exact fun | .server => h | .client => hother
  · exact fun | .server => hother | .client => h

/-- Both sockets, with the messages that each side has sent and received. -/
structure Link where
  socket : Side → WebSocket
  sent : Side → List (FrameOpcode × Bytes)
  received : Side → List (FrameOpcode × Bytes)

namespace Link

def start (pingTimer : Bool) (rng : ℕ → Key) : Link where
  socket
    | .server => .new pingTimer none
    | .client => .new false (some rng)
  sent _ := []
  received _ := []

/-- What one side writes arrives at the other. -/
def apply (l : Link) (x : Side) (e : WebSocket.Effect) : Link where
  socket := Function.update
    (Function.update l.socket x.other
      { l.socket x.other with inbox := (l.socket x.other).inbox ++ e.written }) x e.socket
  sent := Function.update l.sent x (l.sent x ++ e.sent)
  received := Function.update l.received x (l.received x ++ e.received)

def step (l : Link) (e : Side × Action) : Option Link :=
  if e.2.possible (l.socket e.1.other).connOpen then ((l.socket e.1).step e.2).map (l.apply e.1)
  else none

end Link

/-! ### What a move does to the packets -/

def Packet.IsClose : Packet → Prop
  | .close _ => True
  | _ => False

def pings (flight : List Packet) : List Bytes := flight.filterMap fun
  | .ping payload => some payload
  | _ => none

def pongs (flight : List Packet) : List Bytes := flight.filterMap fun
  | .pong payload => some payload
  | _ => none

def messages (flight : List Packet) : List (FrameOpcode × Bytes) := flight.filterMap fun
  | .message opcode ops => some (opcode, written ops)
  | _ => none

section Moves

variable {c c' d d' : Control} {otherOpen : Bool}
  {flight flight' out inc inc' ind ind' : List Packet} {sent received : List (FrameOpcode × Bytes)}

/-- A step takes at most the first packet, and receives at most the message in it. -/
theorem Control.Move.flight_eq (h : c.Move otherOpen flight c' flight' out sent received) :
    flight = flight' ∧ received = [] ∨ ∃ p, flight = p :: flight' ∧ received = messages [p] := by
  cases h with
  | receive _ _ hflight => exact .inr ⟨_, hflight, rfl⟩
  | answer _ hflight => exact .inr ⟨_, hflight, rfl⟩
  | answerLost hflight => exact .inr ⟨_, hflight, rfl⟩
  | pong _ hflight => exact .inr ⟨_, hflight, rfl⟩
  | wrongPong hflight _ => exact .inr ⟨_, hflight, rfl⟩
  | closeFrame hflight _ _ _ => exact .inr ⟨_, hflight, rfl⟩
  | _ => exact .inl ⟨rfl, rfl⟩

/-- A socket writes at most one packet. -/
theorem Control.Move.out_eq (h : c.Move otherOpen flight c' flight' out sent received) :
    out = [] ∧ sent = [] ∨ ∃ p, out = [p] ∧ sent = messages [p] ∧
      (p.IsClose → c'.sentCloseFrame = true) ∧
      (messages [p] ≠ [] → c.sentCloseFrame = false ∧ c.connOpen = true) ∧
      (pings [p] ≠ [] → c.timerPending = true) := by
  cases h with
  | send hopen hclose =>
    exact .inr ⟨_, rfl, rfl, (fun h => h.elim), (fun _ => ⟨hclose, hopen⟩), fun h => absurd rfl h⟩
  | close =>
    exact .inr ⟨_, rfl, rfl, (fun _ => rfl), (fun h => absurd rfl h), fun h => absurd rfl h⟩
  | ping htimer _ =>
    exact .inr ⟨_, rfl, rfl, (fun h => h.elim), (fun h => absurd rfl h), fun _ => htimer⟩
  | answer =>
    exact .inr ⟨_, rfl, rfl, (fun h => h.elim), (fun h => absurd rfl h), fun h => absurd rfl h⟩
  | closeFrame _ _ _ hout =>
    rcases hout with rfl | ⟨rfl, hsent⟩
    · exact .inl ⟨rfl, rfl⟩
    · exact .inr ⟨_, rfl, rfl, (fun _ => hsent), (fun h => absurd rfl h), fun h => absurd rfl h⟩
  | _ => exact .inl ⟨rfl, rfl⟩

theorem messages_append (a b : List Packet) : messages (a ++ b) = messages a ++ messages b :=
  List.filterMap_append

theorem pings_append (a b : List Packet) : pings (a ++ b) = pings a ++ pings b :=
  List.filterMap_append

theorem pongs_append (a b : List Packet) : pongs (a ++ b) = pongs a ++ pongs b :=
  List.filterMap_append

/-- One side has sent what the other has received and what is on its way. -/
theorem Control.Move.messages_eq (h : c.Move otherOpen flight c' flight' out sent received) :
    messages flight = received ++ messages flight' ∧ messages out = sent := by
  constructor
  · obtain ⟨rfl, rfl⟩ | ⟨p, rfl, rfl⟩ := h.flight_eq
    · rfl
    · exact messages_append [p] flight'
  · obtain ⟨rfl, rfl⟩ | ⟨p, rfl, rfl, -⟩ := h.out_eq <;> rfl

/-- A close frame stays sent, a closed connection closed and a stopped timer off. -/
theorem Control.Move.flags (h : c.Move otherOpen flight c' flight' out sent received) :
    (c.sentCloseFrame = true → c'.sentCloseFrame = true) ∧
      (c.connOpen = false → c'.connOpen = false) ∧
      (c.timerPending = false → c'.timerPending = false) := by
  cases h with
  | closeFrame _ htimer hsent _ =>
    refine ⟨fun h => (hsent h).1, fun _ => rfl, fun hoff => ?_⟩
    by_contra hne
    have hon := htimer (by simpa using hne)
    rw [hoff] at hon
    cases hon
  | _ => simp

/-! ### Pings -/

/-- At most one ping or pong of a socket is under way, and it carries the index of the last ping. -/
def Heart (c : Control) (inc ind : List Packet) : Prop :=
  pings ind ++ pongs inc = [] ∨
    c.pongReceived = false ∧ pings ind ++ pongs inc = [littleEndian 4 c.lastPingIndex.toNat]

theorem Heart.of_pong {payload : Bytes} {rest : List Packet}
    (h : Heart c (.pong payload :: rest) ind) :
    pings ind = [] ∧ pongs rest = [] ∧ payload = littleEndian 4 c.lastPingIndex.toNat := by
  have hpongs : pongs (.pong payload :: rest) = payload :: pongs rest := rfl
  rw [Heart, hpongs] at h
  obtain h | ⟨-, h⟩ := h
  · simp at h
  · simpa [List.append_eq_singleton_iff, and_comm] using h

theorem Heart.of_ping {payload : Bytes} {rest : List Packet}
    (h : Heart c inc (.ping payload :: rest)) :
    pings rest = [] ∧ pongs inc = [] ∧ payload = littleEndian 4 c.lastPingIndex.toNat ∧
      c.pongReceived = false := by
  have hpings : pings (.ping payload :: rest) = payload :: pings rest := rfl
  rw [Heart, hpings, List.cons_append] at h
  obtain h | ⟨hwait, h⟩ := h
  · cases h
  · obtain ⟨hpayload, hnil⟩ := List.cons.inj h
    obtain ⟨hrest, hinc⟩ := List.append_eq_nil_iff.mp hnil
    exact ⟨hrest, hinc, hpayload, hwait⟩

/-- A socket that has its pong has nothing under way. -/
theorem Heart.of_received (h : Heart c inc ind) (hpong : c.pongReceived = true) :
    pings ind = [] ∧ pongs inc = [] := by
  obtain h | ⟨hwait, -⟩ := h
  · exact List.append_eq_nil_iff.mp h
  · rw [hpong] at hwait
    cases hwait

theorem Heart.congr (h : Heart c inc ind) (hpong : c'.pongReceived = c.pongReceived)
    (hindex : c'.lastPingIndex = c.lastPingIndex) (hpings : pings ind' = pings ind)
    (hpongs : pongs inc' = pongs inc) : Heart c' inc' ind' := by
  rw [Heart, hpings, hpongs, hpong, hindex]
  exact h

theorem Heart.of_eq_nil (hpings : pings ind = []) (hpongs : pongs inc = []) : Heart c inc ind :=
  .inl (by rw [hpings, hpongs]; rfl)

/-- The pings of the socket that takes a step, and their pongs. -/
theorem Control.Move.heart (h : c.Move otherOpen inc c' inc' out sent received)
    (hheart : Heart c inc ind) : Heart c' inc' (ind ++ out) := by
  cases h with
  | ping _ hpong =>
    obtain ⟨hpings, hpongs⟩ := hheart.of_received hpong
    right
    rw [pings_append, hpings, hpongs]
    exact ⟨rfl, rfl⟩
  | pingLost _ hpong =>
    obtain ⟨hpings, hpongs⟩ := hheart.of_received hpong
    exact .of_eq_nil (by rwa [List.append_nil]) hpongs
  | pong _ hflight | wrongPong hflight _ =>
    subst hflight
    obtain ⟨hpings, hpongs, -⟩ := hheart.of_pong
    exact .of_eq_nil (by rwa [List.append_nil]) hpongs
  | receive _ _ hflight | answer _ hflight | answerLost hflight =>
    subst hflight
    exact hheart.congr rfl rfl (by simp [pings]) rfl
  | closeFrame hflight _ _ hout =>
    subst hflight
    rcases hout with rfl | ⟨rfl, -⟩ <;> exact hheart.congr rfl rfl (by simp [pings]) rfl
  | _ => exact hheart.congr rfl rfl (by simp [pings]) rfl

/-- The pings of the other socket, which the first one answers. -/
theorem Control.Move.heart_other (h : d.Move otherOpen ind d' ind' out sent received)
    (hheart : Heart c inc ind) : Heart c (inc ++ out) ind' := by
  cases h with
  | answer _ hflight =>
    subst hflight
    obtain ⟨hpings, hpongs, rfl, hwait⟩ := hheart.of_ping
    right
    rw [pongs_append, hpings, hpongs]
    exact ⟨hwait, rfl⟩
  | answerLost hflight =>
    subst hflight
    obtain ⟨hpings, hpongs, -, -⟩ := hheart.of_ping
    exact .of_eq_nil hpings (by rwa [List.append_nil])
  | receive _ _ hflight | pong _ hflight | wrongPong hflight _ =>
    subst hflight
    exact hheart.congr rfl rfl rfl (by simp [pongs])
  | closeFrame hflight _ _ hout =>
    subst hflight
    rcases hout with rfl | ⟨rfl, -⟩ <;> exact hheart.congr rfl rfl rfl (by simp [pongs])
  | _ => exact hheart.congr rfl rfl rfl (by simp [pongs])

/-- Every pong passes the checks. -/
theorem Control.Move.checks (h : c.Move otherOpen inc c' inc' out sent received)
    (hheart : Heart c inc ind)
    (hchecks : ∀ failure, c.reader = .failed failure → failure = .connection) (failure : Failure)
    (hfailed : c'.reader = .failed failure) : failure = .connection := by
  cases h with
  | wrongPong hflight hwrong =>
    subst hflight
    exact absurd hheart.of_pong.2.2 hwrong
  | finish _ _ _ hreader =>
    rcases hreader with rfl | rfl
    · cases hfailed
    · exact (Reader.failed.inj hfailed).symm
  | answerLost => exact (Reader.failed.inj hfailed).symm
  | receive | giveUp | answer | pong | closeFrame | hand => cases hfailed
  | _ => exact hchecks failure hfailed

/-! ### Closing -/

/-- A side that has not sent a close frame has none under way, and sends no message behind one. -/
structure ClosesLast (d : Control) (inc : List Packet) : Prop where
  none : d.sentCloseFrame = false → ∀ p ∈ inc, ¬ p.IsClose
  last : inc.Pairwise fun p q => p.IsClose → messages [q] = []

theorem Control.Move.closesLast (h : c.Move otherOpen inc c' inc' out sent received)
    (hlast : ClosesLast d inc) : ClosesLast d inc' := by
  obtain ⟨rfl, -⟩ | ⟨p, rfl, -⟩ := h.flight_eq
  · exact hlast
  · exact ⟨fun hsent q hq => hlast.none hsent q (List.mem_cons_of_mem p hq),
      (List.pairwise_cons.mp hlast.last).2⟩

theorem Control.Move.closesLast_other (h : d.Move otherOpen ind d' ind' out sent received)
    (hlast : ClosesLast d inc) : ClosesLast d' (inc ++ out) := by
  have hsent' : d'.sentCloseFrame = false → d.sentCloseFrame = false := by
    intro hsent
    by_contra hne
    have hstill := h.flags.1 (by simpa using hne)
    rw [hsent] at hstill
    cases hstill
  obtain ⟨rfl, -⟩ | ⟨p, rfl, -, hclose, hmessage, -⟩ := h.out_eq
  · rw [List.append_nil]
    exact ⟨fun hsent => hlast.none (hsent' hsent), hlast.last⟩
  · refine ⟨fun hsent q hq => ?_, List.pairwise_append.mpr
      ⟨hlast.last, List.pairwise_singleton _ p, fun q hq r hr hqclose => ?_⟩⟩
    · rcases List.mem_append.mp hq with hq | hq
      · exact hlast.none (hsent' hsent) q hq
      · rw [List.mem_singleton.mp hq]
        intro hp
        rw [hclose hp] at hsent
        cases hsent
    · rw [List.mem_singleton.mp hr]
      by_contra hne
      exact hlast.none (hmessage hne).1 q hq hqclose

theorem messages_eq_nil (h : ∀ p ∈ inc, messages [p] = []) : messages inc = [] := by
  induction inc with
  | nil => rfl
  | cons p inc ih =>
    have happend := messages_append [p] inc
    rw [h p List.mem_cons_self, ih fun q hq => h q (List.mem_cons_of_mem p hq)] at happend
    exact happend

/-- A connection is closed by the reader or by the other side. -/
def Hung (c d : Control) : Prop := c.connOpen = false → c.reader.Ended ∨ d.connOpen = false

theorem Control.Move.hung (h : c.Move d.connOpen inc c' inc' out sent received) (hhung : Hung c d) :
    Hung c' d := by
  cases h with
  | hangUp hother => exact fun _ => .inr hother
  | receive hreader =>
    refine fun hopen => .inr ((hhung hopen).resolve_left ?_)
    rw [hreader]
    exact id
  | answer hrunning | pong hrunning | hand hrunning =>
    exact fun hopen => .inr ((hhung hopen).resolve_left hrunning)
  | finish _ _ _ hreader => rcases hreader with rfl | rfl <;> exact fun _ => .inl trivial
  | giveUp | answerLost | wrongPong | closeFrame => exact fun _ => .inl trivial
  | _ => exact hhung

theorem Control.Move.hung_other (h : d.Move otherOpen ind d' ind' out sent received)
    (hhung : Hung c d) : Hung c d' := by
  exact fun hopen => (hhung hopen).imp_right h.flags.2.1

/-- While `close` waits, the timer is off. -/
theorem Control.Move.joining (h : c.Move otherOpen inc c' inc' out sent received)
    (hjoining : c.joining = true → c.timerPending = false) :
    c'.joining = true → c'.timerPending = false := by
  have hoff := h.flags.2.2
  cases h with
  | close | closeAgain | skip => exact fun _ => rfl
  | closed => exact nofun
  | closeFrame => exact fun hj => hoff (hjoining hj)
  | _ => exact hjoining

/-- A side without a timer has no ping under way. -/
structure Silent (d : Control) (inc : List Packet) : Prop where
  timer : d.timerPending = false
  pings : pings inc = []

theorem Control.Move.silent (h : c.Move otherOpen inc c' inc' out sent received)
    (hsilent : Silent d inc) : Silent d inc' := by
  obtain ⟨rfl, -⟩ | ⟨p, rfl, -⟩ := h.flight_eq
  · exact hsilent
  · have hpings := pings_append [p] inc'
    rw [List.singleton_append, hsilent.pings] at hpings
    exact ⟨hsilent.timer, (List.append_eq_nil_iff.mp hpings.symm).2⟩

theorem Control.Move.silent_other (h : d.Move otherOpen ind d' ind' out sent received)
    (hsilent : Silent d inc) : Silent d' (inc ++ out) := by
  constructor
  · exact h.flags.2.2 hsilent.timer
  · rw [pings_append, hsilent.pings, List.nil_append]
    obtain ⟨rfl, -⟩ | ⟨p, rfl, -, -, -, htimer⟩ := h.out_eq
    · rfl
    · by_contra hne
      rw [hsilent.timer] at htimer
      cases htimer hne

/-- A reader that has ended, but not for a missing pong, has left no message, and none will come. -/
def Drained (c d : Control) (inc : List Packet) : Prop :=
  c.reader.Ended → c.pongSkipped = true ∨ messages inc = [] ∧
    (d.sentCloseFrame = true ∨ d.connOpen = false)

theorem Control.Move.drained (h : c.Move otherOpen inc c' inc' out sent received)
    (hheart : Heart c inc ind) (hlast : ClosesLast d inc) (hhung : Hung c d)
    (hsilent : Silent d inc) (hdrained : Drained c d inc) : Drained c' d inc' := by
  cases h with
  | receive | answer | pong | hand => exact nofun
  | finish hrunning hopen hflight _ =>
    subst hflight
    exact fun _ => .inr ⟨rfl, .inr ((hhung hopen).resolve_left hrunning)⟩
  | giveUp hskipped => exact fun _ => .inl hskipped
  | answerLost hflight =>
    subst hflight
    exact absurd hsilent.pings (List.cons_ne_nil _ _)
  | wrongPong hflight hwrong =>
    subst hflight
    exact absurd hheart.of_pong.2.2 hwrong
  | @closeFrame payload _ _ _ _ hflight _ _ _ =>
    subst hflight
    refine fun _ => .inr
      ⟨messages_eq_nil fun q hq => (List.pairwise_cons.mp hlast.last).1 q hq trivial, .inl ?_⟩
    by_contra hne
    exact hlast.none (by simpa using hne) (.close payload) List.mem_cons_self trivial
  | skip => exact fun _ => .inl rfl
  | _ => exact hdrained

theorem Control.Move.drained_other (h : d.Move otherOpen ind d' ind' out sent received)
    (hdrained : Drained c d inc) : Drained c d' (inc ++ out) := by
  intro hended
  refine (hdrained hended).imp_right fun ⟨hmessages, hclosed⟩ => ⟨?_, ?_⟩
  · rw [messages_append, hmessages, List.nil_append]
    obtain ⟨rfl, -⟩ | ⟨p, rfl, -, -, hmessage, -⟩ := h.out_eq
    · rfl
    · by_contra hne
      obtain ⟨hsent, hopen⟩ := hmessage hne
      rw [hsent, hopen] at hclosed
      simp at hclosed
  · exact hclosed.imp h.flags.1 h.flags.2.1

/-- `close` waits while a message has not been received. -/
structure Stuck (c : Control) (inc : List Packet) : Prop where
  joining : c.joining = true
  pongSkipped : c.pongSkipped = false
  messages : messages inc ≠ []

theorem Stuck.append (h : Stuck c inc) : Stuck c (inc ++ out) :=
  ⟨h.joining, h.pongSkipped, by rw [messages_append]; simp [h.messages]⟩

end Moves

/-! ### Every order of steps -/

namespace Link

/-- What holds after every step; `flight x` is on its way to the side `x`. -/
structure Inv (l : Link) (flight : Side → List Packet) : Prop where
  holds : ∀ x, (l.socket x).Holds (flight x)
  log : ∀ x, l.sent x.other = l.received x ++ messages (flight x)
  heart : ∀ x, Heart (l.socket x).toControl (flight x) (flight x.other)
  checks : ∀ x failure, (l.socket x).reader = .failed failure → failure = .connection
  closesLast : ∀ x, ClosesLast (l.socket x.other).toControl (flight x)
  hung : ∀ x, Hung (l.socket x).toControl (l.socket x.other).toControl
  joining : ∀ x, (l.socket x).joining = true → (l.socket x).timerPending = false
  silent : Silent (l.socket .client).toControl (flight .server)
  drained : Drained (l.socket .server).toControl (l.socket .client).toControl (flight .server)

theorem inv_start (pingTimer : Bool) (rng : ℕ → Key) : (start pingTimer rng).Inv fun _ => [] where
  holds
    | .server => WebSocket.holds_new pingTimer none
    | .client => WebSocket.holds_new false (some rng)
  log _ := rfl
  heart _ := .inl rfl
  checks
    | .server => nofun
    | .client => nofun
  closesLast _ := ⟨fun _ => List.forall_mem_nil _, .nil⟩
  hung
    | .server => nofun
    | .client => nofun
  joining
    | .server => nofun
    | .client => nofun
  silent := ⟨rfl, rfl⟩
  drained := nofun

variable {l l' : Link} {flight flight' : Side → List Packet} {x : Side} {out : List Packet}
  {sent received : List (FrameOpcode × Bytes)}

/-- A step of one side, as a move. -/
structure Moved (l l' : Link) (x : Side) (flight flight' : Side → List Packet) (out : List Packet)
    (sent received : List (FrameOpcode × Bytes)) : Prop where
  move : (l.socket x).toControl.Move (l.socket x.other).connOpen (flight x) (l'.socket x).toControl
    (flight' x) out sent received
  other : (l'.socket x.other).toControl = (l.socket x.other).toControl
  flight : flight' x.other = flight x.other ++ out
  holds : (l'.socket x).Holds (flight' x)
  holds_other : (l'.socket x.other).Holds (flight' x.other)
  sent : l'.sent x = l.sent x ++ sent
  sent_other : l'.sent x.other = l.sent x.other
  received : l'.received x = l.received x ++ received
  received_other : l'.received x.other = l.received x.other

theorem Moved.inv (h : l.Moved l' x flight flight' out sent received) (hinv : l.Inv flight) :
    l'.Inv flight' where
  holds := Side.forall_of x h.holds h.holds_other
  log := by
    obtain ⟨hmessages, hsent⟩ := h.move.messages_eq
    refine Side.forall_of x ?_ ?_
    · rw [h.sent_other, h.received, hinv.log, hmessages, List.append_assoc]
    · rw [Side.other_other, h.sent, h.received_other, h.flight, messages_append, hsent,
        ← List.append_assoc, ← hinv.log, Side.other_other]
  heart := by
    refine Side.forall_of x ?_ ?_
    · rw [h.flight]
      exact h.move.heart (hinv.heart x)
    · have hheart := hinv.heart x.other
      rw [Side.other_other] at hheart ⊢
      rw [h.other, h.flight]
      exact h.move.heart_other hheart
  checks := by
    refine Side.forall_of x ?_ ?_
    · exact h.move.checks (hinv.heart x) (hinv.checks x)
    · rw [h.other]
      exact hinv.checks x.other
  closesLast := by
    refine Side.forall_of x ?_ ?_
    · rw [h.other]
      exact h.move.closesLast (hinv.closesLast x)
    · have hlast := hinv.closesLast x.other
      rw [Side.other_other] at hlast ⊢
      rw [h.flight]
      exact h.move.closesLast_other hlast
  hung := by
    refine Side.forall_of x ?_ ?_
    · rw [h.other]
      exact h.move.hung (hinv.hung x)
    · have hhung := hinv.hung x.other
      rw [Side.other_other] at hhung ⊢
      rw [h.other]
      exact h.move.hung_other hhung
  joining := by
    refine Side.forall_of x ?_ ?_
    · exact h.move.joining (hinv.joining x)
    · rw [h.other]
      exact hinv.joining x.other
  silent := by
    cases x with
    | server =>
      have hother : (l'.socket .client).toControl = _ := h.other
      rw [hother]
      exact h.move.silent hinv.silent
    | client =>
      have hflight : flight' .server = _ := h.flight
      rw [hflight]
      exact h.move.silent_other hinv.silent
  drained := by
    cases x with
    | server =>
      have hother : (l'.socket .client).toControl = _ := h.other
      rw [hother]
      exact h.move.drained (hinv.heart .server) (hinv.closesLast .server)
        (hinv.hung .server) hinv.silent hinv.drained
    | client =>
      have hother : (l'.socket .server).toControl = _ := h.other
      have hflight : flight' .server = _ := h.flight
      rw [hother, hflight]
      exact h.move.drained_other hinv.drained

variable {pingTimer : Bool} {rng : ℕ → Key} {events later : List (Side × Action)} {t : Link}

/-- A client that always draws the same key, and a text that it sends. -/
def sampleKeys (_ : ℕ) : Key := ⟨[7, 7, 7, 7], rfl⟩

end Link

/-! ### A silent client -/

/-- The reader waits for the first byte of a frame. -/
structure WebSocket.Waits (ws : WebSocket) : Prop where
  reader : ws.reader = .head ∨ ws.reader = .behindPing
  inbox : ws.inbox = []
  nextMessage : ws.nextMessage = none
  connOpen : ws.connOpen = true

theorem WebSocket.Waits.read_eq_none {ws : WebSocket} (h : ws.Waits) : ws.read = none := by
  rw [read]
  rcases h.reader with hreader | hreader <;> simp [hreader, h.inbox, h.connOpen]

theorem WebSocket.Waits.step {ws : WebSocket} (h : ws.Waits) {a : Action}
    (ha : a.possible true = true) {e : Effect} (hstep : ws.step a = some e) : e.socket.Waits := by
  obtain ⟨hreader, hinbox, hnext, hopen⟩ := h
  cases a with
  | send opcode ops =>
    cases hstep
    rw [send]
    obtain ⟨draws, bytes, hwrite, -⟩ := writeAll_eq (fragments opcode ops []) ws
    rw [hwrite]
    split_ifs <;> exact ⟨hreader, hinbox, hnext, hopen⟩
  | receive wants valid =>
    rw [WebSocket.step, receive, hnext] at hstep
    dsimp only at hstep
    split_ifs at hstep
    cases hstep
    exact ⟨hreader, hinbox, hnext, hopen⟩
  | close code reason =>
    rw [WebSocket.step] at hstep
    split_ifs at hstep
    cases hstep
    obtain ⟨draws, bytes, ⟨-, -, heq⟩ | ⟨-, heq⟩⟩ :=
      sendClose_eq { ws with joining := true } (closePayload code reason) <;> rw [heq] <;>
      exact ⟨hreader, hinbox, hnext, hopen⟩
  | closed =>
    rw [WebSocket.step] at hstep
    split_ifs at hstep with hended
    rcases hreader with hreader | hreader <;> rw [hreader] at hended <;> exact hended.2.elim
  | timer =>
    rw [WebSocket.step] at hstep
    split_ifs at hstep
    cases hstep
    rw [sendPing]
    split_ifs with hpong
    · dsimp only
      rw [if_pos hopen]
      obtain ⟨draws, bytes, hwrite, -⟩ := write_eq
        { ws with pongReceived := false, lastPingIndex := ws.lastPingIndex + 1 }
        (pingFrame (littleEndian 4 (ws.lastPingIndex + 1).toNat))
      rw [hwrite]
      exact ⟨hreader, hinbox, hnext, hopen⟩
    · exact ⟨hreader, hinbox, hnext, hopen⟩
  | read =>
    rw [WebSocket.step, Waits.read_eq_none ⟨hreader, hinbox, hnext, hopen⟩] at hstep
    cases hstep
  | hangUp => cases ha

namespace Link

variable {l t : Link} {events : List (Side × Action)}

/-- The connection of a silent client is never closed and its reader never ends, however often
the timer goes off: the reader looks at `m_pongSkipped` only when the next byte has come. -/
theorem silent_client_kept (hwaits : (l.socket .server).Waits)
    (hopen : (l.socket .client).connOpen = true) (hside : ∀ e ∈ events, e.1 = .server)
    (hrun : Transition.run step l events = some t) :
    (t.socket .server).connOpen = true ∧ ¬ (t.socket .server).reader.Ended := by
  obtain ⟨hwaits', -⟩ := Transition.run_invariant
    (fun l : Link => (l.socket .server).Waits ∧ (l.socket .client).connOpen = true)
    (by
      rintro l ⟨x, a⟩ l' hstep hx ⟨hwaits, hopen⟩
      obtain rfl : x = .server := hx
      have hother : Side.server.other = .client := rfl
      rw [step, hother, hopen] at hstep
      split_ifs at hstep with hpossible
      obtain ⟨e, he, rfl⟩ := Option.map_eq_some_iff.mp hstep
      exact ⟨by simpa [apply] using hwaits.step hpossible he, by simpa [apply, hother] using hopen⟩)
    events hrun ((Transition.along_iff_forall events hrun).mpr hside) ⟨hwaits, hopen⟩
  refine ⟨hwaits'.connOpen, ?_⟩
  rcases hwaits'.reader with hreader | hreader <;> rw [hreader] <;> exact id

/-- Two pings without a pong. -/
theorem silent_client_kept_skipped : ∃ t, Transition.run step (start true sampleKeys)
      [(.server, .timer), (.server, .timer)] = some t ∧
    (t.socket .server).pongSkipped = true ∧ (t.socket .server).connOpen = true := by
  have hview : (Transition.run step (start true sampleKeys)
      [(.server, .timer), (.server, .timer)]).map
      (fun t => (t.socket .server).pongSkipped) = some true := by decide +kernel
  obtain ⟨t, hrun, hskipped⟩ := Option.map_eq_some_iff.mp hview
  exact ⟨t, hrun, hskipped, (silent_client_kept ⟨.inl rfl, rfl, rfl, rfl⟩ rfl (by decide) hrun).1⟩

end Link

end Owlchain.Vibe
