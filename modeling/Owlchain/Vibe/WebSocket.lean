import Owlchain.Library.Endian
import Owlchain.Vibe.WebSocketMessage

/-! A web socket. Three tasks work on it: the reader takes frames from the connection and hands
over one message at a time, the user sends, receives and closes, and the timer sends pings.
Each works until its next call that waits; such a stretch is a step.

The steps work on bytes. Seen from outside, what is on its way to a socket is a list of
packets, and a step is one of a few moves on that list and on the flags of the socket. -/

namespace Owlchain.Vibe

open Owlchain.Library Loop Endian

/-! ### The socket -/

/-- What ends the reader by an exception. -/
inductive Failure where
  | pongLength
  | pongValue
  | opcode
  | connection
  deriving DecidableEq

/-- Where the reader is: at `while (!m_conn.empty)`, in the constructor of a message behind a
ping, at `while (m_nextMessage)`, or at its end. -/
inductive Reader where
  | head
  | behindPing
  | handing
  | returned
  | failed (failure : Failure)
  deriving DecidableEq

def Reader.Ended : Reader → Prop
  | .returned => True
  | .failed _ => True
  | _ => False

instance : DecidablePred Reader.Ended := fun reader => by
  cases reader
  case returned => exact .isTrue trivial
  case failed => exact .isTrue trivial
  all_goals exact .isFalse id

/-- The flags of a socket. `connOpen` is `m_conn.connected`, and `joining` says that the user
waits for the reader in `close`. -/
structure Control where
  pingTimer : Bool
  timerPending : Bool
  lastPingIndex : UInt32
  pongReceived : Bool
  pongSkipped : Bool
  sentCloseFrame : Bool
  reader : Reader
  joining : Bool
  connOpen : Bool
  deriving DecidableEq

/-- `ubyte[4] buff` -/
def Key : Type := { buff : Bytes // buff.length = 4 }

/-- A socket, with the keys that its `rng` will draw and the bytes that have arrived. -/
structure WebSocket extends Control where
  rng : Option (ℕ → Key)
  draws : ℕ
  nextMessage : Option Frame
  inbox : Bytes

/-- Only a socket of a server has a timer, and only one of a client has a source of keys. -/
def WebSocket.new (pingTimer : Bool) (rng : Option (ℕ → Key)) : WebSocket where
  pingTimer := pingTimer
  timerPending := pingTimer
  lastPingIndex := 0
  pongReceived := pingTimer
  pongSkipped := false
  sentCloseFrame := false
  reader := .head
  joining := false
  connOpen := true
  rng := rng
  draws := 0
  nextMessage := none
  inbox := []

namespace WebSocket

def connected (ws : WebSocket) : Bool := ws.connOpen && !ws.sentCloseFrame

/-- Write a frame to the connection. -/
def write (ws : WebSocket) (frame : Frame) : WebSocket × Bytes :=
  match ws.rng with
  | none => (ws, writeFrame frame none)
  | some key => ({ ws with draws := ws.draws + 1 }, writeFrame frame (some (key ws.draws).val))

def writeAll (ws : WebSocket) : List Frame → WebSocket × Bytes
  | [] => (ws, [])
  | frame :: frames =>
    let (ws, bytes) := ws.write frame
    let (ws, more) := ws.writeAll frames
    (ws, bytes ++ more)

/-- What a step does: the socket after it, the bytes that it writes, and the message that it
sends or receives. -/
structure Effect where
  socket : WebSocket
  written : Bytes
  sent : List (FrameOpcode × Bytes)
  received : List (FrameOpcode × Bytes)

/-- A step that ends in an exception of the user, or only changes flags. -/
def Effect.quiet (ws : WebSocket) : Effect := ⟨ws, [], [], []⟩

def Effect.writes (r : WebSocket × Bytes) : Effect := ⟨r.1, r.2, [], []⟩

/-- `send`; the delegate does what `ops` says. -/
def send (ws : WebSocket) (frameOpcode : FrameOpcode) (ops : List WriteOp) : Effect :=
  if ws.connected then
    let (ws', bytes) := ws.writeAll (fragments frameOpcode ops [])
    ⟨ws', bytes, [(frameOpcode, Vibe.written ops)], []⟩
  else .quiet ws

/-- The payload of a close frame. -/
def closePayload (code : UInt16) (reason : Bytes) : Bytes :=
  if code = 0 then [] else bigEndian 2 code.toNat ++ reason

/-- `close`, up to the point where it waits for the reader. -/
def sendClose (ws : WebSocket) (payload : Bytes) : WebSocket × Bytes :=
  let (ws, bytes) :=
    if ws.connected then write { ws with sentCloseFrame := true } ⟨true, .close, payload⟩
    else (ws, [])
  ({ ws with timerPending := false }, bytes)

/-- `receive`, for a delegate that first looks at the type of the message, then reads all of it
and looks at the bytes; it throws if it does not like them. The message is gone only if it
does not throw. -/
def receive (ws : WebSocket) (wants : FrameOpcode → Bool) (valid : Bytes → Bool) : Option Effect :=
  match ws.nextMessage with
  | none => if ws.connected then none else some (.quiet ws)
  | some frame =>
    if wants frame.opcode then
      match Incoming.readAll (frame.payload.length + ws.inbox.length) ⟨frame, ws.inbox⟩ [] with
      | .error _ => none
      | .ok (data, m) =>
        if valid data then
          some ⟨{ ws with nextMessage := none, inbox := m.conn, reader := .head }, [], [],
            [(frame.opcode, data)]⟩
        else some (.quiet { ws with nextMessage := some m.currentFrame, inbox := m.conn })
    else some (.quiet ws)

/-- The timer goes off. -/
def sendPing (ws : WebSocket) : WebSocket × Bytes :=
  if ws.pongReceived then
    let ws := { ws with pongReceived := false, lastPingIndex := ws.lastPingIndex + 1 }
    -- nothing can be written to a connection that is closed
    if ws.connOpen then ws.write (pingFrame (littleEndian 4 ws.lastPingIndex.toNat)) else (ws, [])
  else ({ ws with pongSkipped := true, timerPending := false }, [])

/-- The reader catches an exception and closes the connection. -/
def fail (ws : WebSocket) (failure : Failure) : WebSocket :=
  { ws with reader := .failed failure, connOpen := false }

/-- What the reader does with a frame. -/
def onFrame (ws : WebSocket) (frame : Frame) : WebSocket × Bytes :=
  match frame.opcode with
  | .ping =>
    if ws.connOpen then write { ws with reader := .behindPing } (pongFrame frame.payload)
    else (ws.fail .connection, [])
  | .pong =>
    if frame.payload.length ≠ 4 then (ws.fail .pongLength, [])
    else if ws.lastPingIndex ≠ UInt32.ofNat (fromLittleEndian frame.payload) then
      (ws.fail .pongValue, [])
    else ({ ws with pongReceived := true, reader := .head }, [])
  | .close =>
    let (ws, bytes) := if ws.sentCloseFrame then (ws, []) else ws.sendClose []
    ({ ws with reader := .returned, connOpen := false }, bytes)
  | .unknown _ => (ws.fail .opcode, [])
  | _ => ({ ws with nextMessage := some frame, reader := .handing }, [])

/-- The reader takes a frame, of which all bytes must have arrived. -/
def takeFrame (ws : WebSocket) : Option (WebSocket × Bytes) :=
  match readFrame ws.inbox with
  | .error _ => none
  | .ok (frame, inbox) => some (onFrame { ws with inbox := inbox } frame)

/-- The reader goes on. At the head of its loop it waits until bytes have arrived or the
connection is closed, before it looks at `m_pongSkipped`. -/
def read (ws : WebSocket) : Option (WebSocket × Bytes) :=
  match ws.reader with
  | .head =>
    if ws.inbox = [] then
      if ws.connOpen then none else some ({ ws with reader := .returned, connOpen := false }, [])
    else if ws.pingTimer && ws.pongSkipped then
      some ({ ws with reader := .returned, connOpen := false }, [])
    else ws.takeFrame
  | .behindPing =>
    if ws.inbox = [] then
      if ws.connOpen then none else some (ws.fail .connection, [])
    else ws.takeFrame
  | _ => none

end WebSocket

/-- What can happen to a socket. -/
inductive Action where
  | send (opcode : FrameOpcode) (ops : List WriteOp)
  | receive (wants : FrameOpcode → Bool) (valid : Bytes → Bool)
  | close (code : UInt16) (reason : Bytes)
  /-- `close` returns -/
  | closed
  | timer
  | read
  /-- the other side has closed the connection -/
  | hangUp

/-- A connection is hung up only if the other side has closed it. -/
def Action.possible (otherOpen : Bool) : Action → Bool
  | .hangUp => !otherOpen
  | _ => true

namespace WebSocket

def step (ws : WebSocket) : Action → Option Effect
  | .send opcode ops => some (ws.send opcode ops)
  | .receive wants valid => if ws.joining then none else ws.receive wants valid
  | .close code reason =>
    if ws.joining ∨ 123 < reason.length then none
    else some (.writes (sendClose { ws with joining := true } (closePayload code reason)))
  | .closed =>
    if ws.joining ∧ ws.reader.Ended then some (.quiet { ws with joining := false }) else none
  | .timer => if ws.timerPending then some (.writes ws.sendPing) else none
  | .read => ws.read.map .writes
  | .hangUp => some (.quiet { ws with connOpen := false })

end WebSocket

/-! ### Packets -/

/-- What is written in one step: a whole message or a control frame. -/
inductive Packet where
  | message (opcode : FrameOpcode) (ops : List WriteOp)
  | ping (payload : Bytes)
  | pong (payload : Bytes)
  | close (payload : Bytes)

namespace Packet

def frames : Packet → List Frame
  | .message opcode ops => fragments opcode ops []
  | .ping payload => [pingFrame payload]
  | .pong payload => [pongFrame payload]
  | .close payload => [⟨true, .close, payload⟩]

/-- A message of a type that applications send, of which the receiver gets all. -/
def Complete : Packet → Prop
  | .message opcode ops => opcode.IsData ∧ Whole (fragments opcode ops [])
  | _ => True

structure Plain (p : Packet) : Prop where
  frames : ∀ frame ∈ p.frames, frame.Plain
  complete : p.Complete

/-- The first frame of a packet. -/
theorem frames_eq_cons (p : Packet) : ∃ frame frames, p.frames = frame :: frames := by
  cases p with
  | message opcode ops =>
    obtain ⟨frame, frames, h, -⟩ := fragments_eq opcode ops []
    exact ⟨frame, frames, h⟩
  | ping payload => exact ⟨_, [], rfl⟩
  | pong payload => exact ⟨_, [], rfl⟩
  | close payload => exact ⟨_, [], rfl⟩

end Packet

/-- The frames on the way to a socket. -/
abbrev flightFrames (flight : List Packet) : List Frame := flight.flatMap Packet.frames

/-- The packets on the way to a socket. A message counts until it is received, also when its
first frame has been read. -/
structure WebSocket.Holds (ws : WebSocket) (flight : List Packet) : Prop where
  plain : ∀ p ∈ flight, p.Plain
  handing : ws.nextMessage.isSome = true ↔ ws.reader = .handing
  reading : ws.nextMessage = none → Wire (flightFrames flight) ws.inbox
  taken : ∀ frame, ws.nextMessage = some frame →
    ∃ opcode ops frames rest, flight = .message opcode ops :: rest ∧
      fragments opcode ops [] = frame :: frames ∧ Wire (frames ++ flightFrames rest) ws.inbox

/-- What a step can do to the flags of a socket and to the packets on their way to it, and what
it writes, sends and receives; `otherOpen` says that the other side has not closed the
connection. -/
inductive Control.Move (c : Control) (otherOpen : Bool) (flight : List Packet) :
    Control → List Packet → List Packet →
    List (FrameOpcode × Bytes) → List (FrameOpcode × Bytes) → Prop
  | stay : Move c otherOpen flight c flight [] [] []
  | send {opcode : FrameOpcode} {ops : List WriteOp} (hopen : c.connOpen = true)
      (hclose : c.sentCloseFrame = false) :
    Move c otherOpen flight c flight [.message opcode ops] [(opcode, written ops)] []
  | receive {opcode : FrameOpcode} {ops : List WriteOp} {rest : List Packet}
      (hreader : c.reader = .handing) (hjoining : c.joining = false)
      (hflight : flight = .message opcode ops :: rest) :
    Move c otherOpen flight { c with reader := .head } rest [] [] [(opcode, written ops)]
  | close {payload : Bytes} (hopen : c.connOpen = true) (hclose : c.sentCloseFrame = false) :
    Move c otherOpen flight
      { c with sentCloseFrame := true, timerPending := false, joining := true }
      flight [.close payload] [] []
  | closeAgain (hclose : c.connOpen = false ∨ c.sentCloseFrame = true) :
    Move c otherOpen flight { c with timerPending := false, joining := true } flight [] [] []
  | closed (hreader : c.reader.Ended) :
    Move c otherOpen flight { c with joining := false } flight [] [] []
  | skip (htimer : c.timerPending = true) :
    Move c otherOpen flight { c with pongSkipped := true, timerPending := false } flight [] [] []
  | ping (htimer : c.timerPending = true) (hpong : c.pongReceived = true) :
    Move c otherOpen flight { c with pongReceived := false, lastPingIndex := c.lastPingIndex + 1 }
      flight [.ping (littleEndian 4 (c.lastPingIndex + 1).toNat)] [] []
  | pingLost (htimer : c.timerPending = true) (hpong : c.pongReceived = true) :
    Move c otherOpen flight { c with pongReceived := false, lastPingIndex := c.lastPingIndex + 1 }
      flight [] [] []
  | hangUp (hother : otherOpen = false) :
    Move c otherOpen flight { c with connOpen := false } flight [] [] []
  | finish {reader : Reader} (hrunning : ¬ c.reader.Ended) (hopen : c.connOpen = false)
      (hflight : flight = []) (hreader : reader = .returned ∨ reader = .failed .connection) :
    Move c otherOpen flight { c with reader := reader, connOpen := false } flight [] [] []
  | giveUp (hskipped : c.pongSkipped = true) :
    Move c otherOpen flight { c with reader := .returned, connOpen := false } flight [] [] []
  | answer {payload : Bytes} {rest : List Packet} (hrunning : ¬ c.reader.Ended)
      (hflight : flight = .ping payload :: rest) :
    Move c otherOpen flight { c with reader := .behindPing } rest [.pong payload] [] []
  | answerLost {payload : Bytes} {rest : List Packet} (hflight : flight = .ping payload :: rest) :
    Move c otherOpen flight { c with reader := .failed .connection, connOpen := false }
      rest [] [] []
  | pong {payload : Bytes} {rest : List Packet} (hrunning : ¬ c.reader.Ended)
      (hflight : flight = .pong payload :: rest) :
    Move c otherOpen flight { c with pongReceived := true, reader := .head } rest [] [] []
  | wrongPong {payload : Bytes} {rest : List Packet} {failure : Failure}
      (hflight : flight = .pong payload :: rest)
      (hwrong : payload ≠ littleEndian 4 c.lastPingIndex.toNat) :
    Move c otherOpen flight { c with reader := .failed failure, connOpen := false } rest [] [] []
  | closeFrame {payload : Bytes} {rest out : List Packet} {timerPending sentCloseFrame : Bool}
      (hflight : flight = .close payload :: rest)
      (htimer : timerPending = true → c.timerPending = true)
      (hsent : c.sentCloseFrame = true → sentCloseFrame = true ∧ out = [])
      (hout : out = [] ∨ out = [.close []] ∧ sentCloseFrame = true) :
    Move c otherOpen flight
      { c with
        timerPending := timerPending, sentCloseFrame := sentCloseFrame,
        reader := .returned, connOpen := false } rest out [] []
  | hand {opcode : FrameOpcode} {ops : List WriteOp} {rest : List Packet}
      (hrunning : ¬ c.reader.Ended) (hflight : flight = .message opcode ops :: rest) :
    Move c otherOpen flight { c with reader := .handing } flight [] [] []

/-- The conditions on what users do: they send messages that can be received, and do not
refuse one that they have read. -/
def Action.Careful : Action → Prop
  | .send opcode ops => (Packet.message opcode ops).Plain
  | .receive _ valid => ∀ data, valid data = true
  | _ => True

namespace WebSocket

variable {ws : WebSocket} {otherOpen : Bool} {flight : List Packet}

theorem write_eq (ws : WebSocket) (frame : Frame) :
    ∃ draws bytes, ws.write frame = ({ ws with draws := draws }, bytes) ∧ Wire [frame] bytes := by
  obtain hrng | ⟨key, hrng⟩ := Option.eq_none_or_eq_some ws.rng
  · have heq : ws.write frame = (ws, writeFrame frame none) := by rw [write, hrng]
    exact ⟨ws.draws, _, heq, .single frame (by simp)⟩
  · refine ⟨ws.draws + 1, writeFrame frame (some (key ws.draws).val), by rw [write, hrng],
      .single frame ?_⟩
    simpa using (key ws.draws).property

theorem writeAll_eq (frames : List Frame) (ws : WebSocket) :
    ∃ draws bytes, ws.writeAll frames = ({ ws with draws := draws }, bytes) ∧
      Wire frames bytes := by
  induction frames generalizing ws with
  | nil => exact ⟨ws.draws, [], rfl, .nil⟩
  | cons frame frames ih =>
    obtain ⟨draws, bytes, hwrite, hwire⟩ := ws.write_eq frame
    obtain ⟨draws', bytes', hwrite', hwire'⟩ := ih { ws with draws := draws }
    refine ⟨draws', bytes ++ bytes', ?_, hwire.append hwire'⟩
    rw [writeAll, hwrite]
    dsimp only
    rw [hwrite']

/-- A step is one of the moves. -/
def Moves (ws : WebSocket) (otherOpen : Bool) (flight : List Packet) (e : Effect) : Prop :=
  ∃ flight' out, e.socket.Holds flight' ∧ (∀ p ∈ out, p.Plain) ∧ Wire (flightFrames out) e.written ∧
    ws.toControl.Move otherOpen flight e.socket.toControl flight' out e.sent e.received

/-- Only where the reader is and what has arrived matters for the packets. -/
theorem Holds.congr (h : ws.Holds flight) {ws' : WebSocket} (hreader : ws'.reader = ws.reader)
    (hnext : ws'.nextMessage = ws.nextMessage) (hinbox : ws'.inbox = ws.inbox) :
    ws'.Holds flight where
  plain := h.plain
  handing := by rw [hreader, hnext, h.handing]
  reading := by rw [hnext, hinbox]; exact h.reading
  taken := by rw [hnext, hinbox]; exact h.taken

/-- A move that writes nothing and changes neither the reader nor what has arrived. -/
theorem Holds.quiet (h : ws.Holds flight) {ws' : WebSocket} (hreader : ws'.reader = ws.reader)
    (hnext : ws'.nextMessage = ws.nextMessage) (hinbox : ws'.inbox = ws.inbox)
    (hmove : ws.toControl.Move otherOpen flight ws'.toControl flight [] [] []) :
    ws.Moves otherOpen flight (.quiet ws') :=
  ⟨flight, [], h.congr hreader hnext hinbox, List.forall_mem_nil _, .nil, hmove⟩

theorem connected_iff : ws.connected = true ↔ ws.connOpen = true ∧ ws.sentCloseFrame = false := by
  simp [connected]

theorem send_moves (h : ws.Holds flight) {opcode : FrameOpcode} {ops : List WriteOp}
    (hplain : (Packet.message opcode ops).Plain) :
    ws.Moves otherOpen flight (ws.send opcode ops) := by
  rw [send]
  split_ifs with hconnected
  · obtain ⟨hopen, hclose⟩ := connected_iff.mp hconnected
    obtain ⟨draws, bytes, hwrite, hwire⟩ := writeAll_eq (fragments opcode ops []) ws
    rw [hwrite]
    refine ⟨flight, [.message opcode ops], h.congr rfl rfl rfl, by simpa using hplain, ?_,
      .send hopen hclose⟩
    simpa [Packet.frames] using hwire
  · exact h.quiet rfl rfl rfl .stay

theorem receive_moves (h : ws.Holds flight) (hjoining : ws.joining = false)
    {wants : FrameOpcode → Bool} {valid : Bytes → Bool} (hvalid : ∀ data, valid data = true)
    {e : Effect} (hreceive : ws.receive wants valid = some e) : ws.Moves otherOpen flight e := by
  rw [receive] at hreceive
  cases hnext : ws.nextMessage with
  | none =>
    rw [hnext] at hreceive
    dsimp only at hreceive
    split_ifs at hreceive
    cases hreceive
    exact h.quiet rfl rfl rfl .stay
  | some frame =>
    obtain ⟨opcode, ops, frames, rest, rfl, hfragments, hwire⟩ := h.taken frame hnext
    obtain ⟨x, y, hinbox, hx, hy⟩ := hwire.split
    have hplain := h.plain _ List.mem_cons_self
    have hframes := hplain.frames
    obtain ⟨-, hwhole⟩ := hplain.complete
    obtain ⟨frame', frames', hfragments', hmessage, hopcode, hpayload⟩ := fragments_eq opcode ops []
    obtain ⟨rfl, rfl⟩ := List.cons.inj (hfragments.symm.trans hfragments')
    obtain ⟨bytes', last, hwire', hread⟩ := readAll_message frames frame x y [] hmessage hx
      (fun f hf => hframes f
        (show f ∈ fragments opcode ops [] from hfragments ▸ List.mem_cons_of_mem frame hf))
      (frame.payload.length + ws.inbox.length) (by rw [hinbox, List.length_append]; omega)
    rw [(deliver_message frames frame hmessage).1 (hfragments ▸ hwhole)] at hwire' hread
    cases hwire'
    rw [hnext] at hreceive
    dsimp only at hreceive
    split_ifs at hreceive
    · rw [hinbox] at hread
      rw [hinbox, hread] at hreceive
      dsimp only at hreceive
      rw [if_pos (hvalid _), Option.some.injEq] at hreceive
      subst hreceive
      refine ⟨rest, [], ?_, List.forall_mem_nil _, .nil, ?_⟩
      · exact ⟨fun p hp => h.plain p (List.mem_cons_of_mem _ hp), by simp, fun _ => hy,
          fun _ h => nomatch h⟩
      · rw [List.nil_append, hpayload, hopcode]
        exact .receive (h.handing.mp (by rw [hnext]; rfl)) hjoining rfl
    · cases hreceive
      exact h.quiet rfl rfl rfl .stay

/-- A frame of a control packet. -/
theorem plain_of_length {opcode : FrameOpcode} (hopcode : opcode.Named) {payload : Bytes}
    (h : payload.length < 126) : (Frame.mk true opcode payload).Plain :=
  ⟨hopcode, Nat.lt_trans h (by decide), by dsimp only; omega⟩

theorem length_closePayload {code : UInt16} {reason : Bytes} (h : ¬ 123 < reason.length) :
    (closePayload code reason).length < 126 := by
  rw [closePayload]
  split_ifs
  · exact Nat.zero_lt_succ 125
  · rw [List.length_append, length_bigEndian]
    omega

theorem close_plain {payload : Bytes} (h : payload.length < 126) : (Packet.close payload).Plain :=
  ⟨List.forall_mem_singleton.mpr (plain_of_length (by trivial) h), trivial⟩

theorem sendClose_eq (ws : WebSocket) (payload : Bytes) : ∃ draws bytes,
    (ws.connected = true ∧ Wire (flightFrames [.close payload]) bytes ∧
      ws.sendClose payload =
        ({ ws with sentCloseFrame := true, draws := draws, timerPending := false }, bytes)) ∨
    (ws.connected = false ∧ ws.sendClose payload = ({ ws with timerPending := false }, [])) := by
  rw [sendClose]
  split_ifs with hconnected
  · obtain ⟨draws, bytes, hwrite, hwire⟩ :=
      write_eq { ws with sentCloseFrame := true } ⟨true, .close, payload⟩
    refine ⟨draws, bytes, .inl ⟨hconnected, hwire, ?_⟩⟩
    rw [hwrite]
  · exact ⟨0, [], .inr ⟨by simpa using hconnected, rfl⟩⟩

theorem close_moves (h : ws.Holds flight) {payload : Bytes} (hpayload : payload.length < 126) :
    ws.Moves otherOpen flight (.writes (sendClose { ws with joining := true } payload)) := by
  obtain ⟨draws, bytes, ⟨hconnected, hwire, heq⟩ | ⟨hconnected, heq⟩⟩ :=
    sendClose_eq { ws with joining := true } payload
  · obtain ⟨hopen, hclose⟩ := connected_iff.mp hconnected
    rw [heq]
    exact ⟨flight, [.close payload], h.congr rfl rfl rfl,
      List.forall_mem_singleton.mpr (close_plain hpayload), hwire, .close hopen hclose⟩
  · rw [heq]
    refine h.quiet rfl rfl rfl (.closeAgain ?_)
    simpa [connected, ← Bool.not_eq_true, imp_iff_not_or] using hconnected

/-- The index of the last ping passes both checks. -/
theorem index_checks (index : UInt32) : (littleEndian 4 index.toNat).length = 4 ∧
    index = UInt32.ofNat (fromLittleEndian (littleEndian 4 index.toNat)) := by
  refine ⟨length_littleEndian 4 _, ?_⟩
  rw [fromLittleEndian_of_lt (Nat.lt_of_lt_of_eq index.toNat_lt (by norm_num)), UInt32.ofNat_toNat]

/-- The reader takes the first frame of a packet. -/
theorem onFrame_moves {p : Packet} {rest : List Packet} {frame : Frame} {frames : List Frame}
    (hframes : p.frames = frame :: frames) (hplain : ∀ q ∈ p :: rest, q.Plain)
    (hwire : Wire (frames ++ flightFrames rest) ws.inbox) (hnext : ws.nextMessage = none)
    (hrunning : ¬ ws.reader.Ended) :
    ws.Moves otherOpen (p :: rest) (.writes (ws.onFrame frame)) := by
  have hrest : ∀ q ∈ rest, q.Plain := fun q hq => hplain q (List.mem_cons_of_mem p hq)
  have hholds : ∀ ws' : WebSocket, ws'.reader ≠ .handing → ws'.nextMessage = ws.nextMessage →
      ws'.inbox = ws.inbox → frames = [] → ws'.Holds rest := by
    intro ws' hreader hnext' hinbox hnil
    rw [hnil, List.nil_append] at hwire
    exact ⟨hrest, by simp [hnext', hnext, hreader], fun _ => hinbox ▸ hwire,
      fun _ h => by simp [hnext', hnext] at h⟩
  cases p with
  | message opcode ops =>
    obtain ⟨hdata, -⟩ := (hplain _ List.mem_cons_self).complete
    obtain ⟨frame', frames', hfragments, -, hopcode, -⟩ := fragments_eq opcode ops []
    obtain ⟨rfl, rfl⟩ := List.cons.inj (hframes.symm.trans hfragments)
    have heq : ws.onFrame frame =
        ({ ws with nextMessage := some frame, reader := .handing }, []) := by
      rw [onFrame]
      rcases hdata with h | h <;> rw [hopcode, h]
    rw [heq]
    refine ⟨.message opcode ops :: rest, [], ⟨hplain, by simp [Effect.writes], ?_, ?_⟩,
      List.forall_mem_nil _, .nil, .hand hrunning rfl⟩
    · exact fun h => nomatch h
    · intro frame' hframe'
      cases hframe'
      exact ⟨opcode, ops, frames, rest, rfl, hframes, hwire⟩
  | ping payload =>
    obtain ⟨rfl, hnil⟩ := List.cons.inj hframes
    rw [onFrame, pingFrame]
    dsimp only
    split_ifs with hopen
    · obtain ⟨draws, bytes, hwrite, hpong⟩ :=
        write_eq { ws with reader := .behindPing } (pongFrame payload)
      rw [hwrite]
      refine ⟨rest, [.pong payload], hholds _ (by simp [Effect.writes]) rfl rfl hnil.symm, ?_,
        hpong, .answer hrunning rfl⟩
      have hping := (hplain _ List.mem_cons_self).frames _ List.mem_cons_self
      exact List.forall_mem_singleton.mpr
        ⟨List.forall_mem_singleton.mpr ⟨by trivial, hping.length_lt, hping.length_ne⟩, trivial⟩
    · exact ⟨rest, [], hholds _ (by simp [Effect.writes, fail]) rfl rfl hnil.symm,
        List.forall_mem_nil _, .nil, .answerLost rfl⟩
  | pong payload =>
    obtain ⟨rfl, hnil⟩ := List.cons.inj hframes
    rw [onFrame, pongFrame]
    dsimp only
    obtain ⟨hlength, hvalue⟩ := index_checks ws.lastPingIndex
    split_ifs with hwrong hwrong
    · refine ⟨rest, [], hholds _ (by simp [Effect.writes, fail]) rfl rfl hnil.symm,
        List.forall_mem_nil _, .nil, .wrongPong rfl ?_⟩
      exact fun h => hwrong (h ▸ hlength)
    · refine ⟨rest, [], hholds _ (by simp [Effect.writes, fail]) rfl rfl hnil.symm,
        List.forall_mem_nil _, .nil, .wrongPong rfl ?_⟩
      exact fun h => hwrong (h ▸ hvalue)
    · exact ⟨rest, [], hholds _ (by simp [Effect.writes]) rfl rfl hnil.symm, List.forall_mem_nil _,
        .nil, .pong hrunning rfl⟩
  | close payload =>
    obtain ⟨rfl, hnil⟩ := List.cons.inj hframes
    rw [onFrame]
    dsimp only
    split_ifs with hsent
    · refine ⟨rest, [], hholds _ (by simp [Effect.writes]) rfl rfl hnil.symm,
        List.forall_mem_nil _, .nil, ?_⟩
      exact .closeFrame rfl id (fun _ => ⟨hsent, rfl⟩) (.inl rfl)
    · obtain ⟨draws, bytes, ⟨hconnected, hclose, heq⟩ | ⟨hconnected, heq⟩⟩ := ws.sendClose_eq []
      · rw [heq]
        refine ⟨rest, [.close []], hholds _ (by simp [Effect.writes]) rfl rfl hnil.symm,
          ?_, hclose, ?_⟩
        · exact List.forall_mem_singleton.mpr (close_plain (by decide))
        · exact .closeFrame rfl (fun h => nomatch h) (fun h => absurd h hsent) (.inr ⟨rfl, rfl⟩)
      · rw [heq]
        refine ⟨rest, [], hholds _ (by simp [Effect.writes]) rfl rfl hnil.symm,
          List.forall_mem_nil _, .nil, ?_⟩
        exact .closeFrame rfl (fun h => nomatch h) (fun h => absurd h hsent) (.inl rfl)

/-- Nothing has arrived exactly if no packet is on its way. -/
theorem Holds.inbox_eq_nil (h : ws.Holds flight) (hnext : ws.nextMessage = none) :
    ws.inbox = [] ↔ flight = [] := by
  have hwire := h.reading hnext
  constructor
  · intro hinbox
    rw [hinbox] at hwire
    cases flight with
    | nil => rfl
    | cons p rest =>
      obtain ⟨frame, frames, hframes⟩ := p.frames_eq_cons
      simpa [hframes] using hwire.eq_nil
  · rintro rfl
    exact hwire.bytes_eq_nil

theorem takeFrame_moves (h : ws.Holds flight) (hnext : ws.nextMessage = none)
    (hinbox : ws.inbox ≠ []) (hrunning : ¬ ws.reader.Ended) {r : WebSocket × Bytes}
    (htake : ws.takeFrame = some r) : ws.Moves otherOpen flight (.writes r) := by
  have hwire := h.reading hnext
  cases flight with
  | nil => exact absurd hwire.bytes_eq_nil hinbox
  | cons p rest =>
    obtain ⟨frame, frames, hframes⟩ := p.frames_eq_cons
    rw [flightFrames, List.flatMap_cons, hframes, List.cons_append] at hwire
    have hframe := (h.plain p List.mem_cons_self).frames frame (hframes ▸ List.mem_cons_self)
    obtain ⟨inbox, hwire', -, hread⟩ := hwire.read hframe
    have hread := hread []
    rw [List.append_nil, List.append_nil] at hread
    rw [takeFrame, hread] at htake
    cases htake
    exact onFrame_moves hframes h.plain hwire' hnext hrunning

/-- The end of the reader while it waits for a frame. -/
theorem end_moves (h : ws.Holds flight) (hnext : ws.nextMessage = none) {ws' : WebSocket}
    (hreader : ws'.reader ≠ .handing) (hnext' : ws'.nextMessage = ws.nextMessage)
    (hinbox : ws'.inbox = ws.inbox)
    (hmove : ws.toControl.Move otherOpen flight ws'.toControl flight [] [] []) :
    ws.Moves otherOpen flight (.quiet ws') := by
  refine ⟨flight, [], ⟨h.plain, ?_, ?_, ?_⟩, List.forall_mem_nil _, .nil, hmove⟩
  · simp [Effect.quiet, hnext', hnext, hreader]
  · exact fun _ => hinbox ▸ h.reading hnext
  · intro frame hframe
    rw [Effect.quiet, hnext', hnext] at hframe
    cases hframe

theorem read_moves (h : ws.Holds flight) {r : WebSocket × Bytes} (hread : ws.read = some r) :
    ws.Moves otherOpen flight (.writes r) := by
  have hnext : ws.reader ≠ .handing → ws.nextMessage = none := fun hne => by
    cases hnext : ws.nextMessage with
    | none => rfl
    | some frame => exact absurd (h.handing.mp (by rw [hnext]; rfl)) hne
  rw [read] at hread
  cases hreader : ws.reader with
  | head =>
    have hnext := hnext (by rw [hreader]; decide)
    have hrunning : ¬ ws.reader.Ended := by rw [hreader]; exact id
    rw [hreader] at hread
    dsimp only at hread
    split_ifs at hread with hinbox hopen hskipped
    · cases hread
      exact end_moves h hnext (by simp) rfl rfl
        (.finish hrunning (by simpa using hopen) ((h.inbox_eq_nil hnext).mp hinbox) (.inl rfl))
    · cases hread
      exact end_moves h hnext (by simp) rfl rfl (.giveUp (Bool.and_eq_true_iff.mp hskipped).2)
    · exact takeFrame_moves h hnext hinbox hrunning hread
  | behindPing =>
    have hnext := hnext (by rw [hreader]; decide)
    have hrunning : ¬ ws.reader.Ended := by rw [hreader]; exact id
    rw [hreader] at hread
    dsimp only at hread
    split_ifs at hread with hinbox hopen
    · cases hread
      exact end_moves h hnext (by simp [fail]) rfl rfl
        (.finish hrunning (by simpa using hopen) ((h.inbox_eq_nil hnext).mp hinbox) (.inr rfl))
    · exact takeFrame_moves h hnext hinbox hrunning hread
  | handing => rw [hreader] at hread; cases hread
  | returned => rw [hreader] at hread; cases hread
  | failed failure => rw [hreader] at hread; cases hread

theorem sendPing_moves (h : ws.Holds flight) (htimer : ws.timerPending = true) :
    ws.Moves otherOpen flight (.writes ws.sendPing) := by
  rw [sendPing]
  split_ifs with hpong
  · dsimp only
    split_ifs with hopen
    · obtain ⟨draws, bytes, hwrite, hwire⟩ :=
        write_eq { ws with pongReceived := false, lastPingIndex := ws.lastPingIndex + 1 }
          (pingFrame (littleEndian 4 (ws.lastPingIndex + 1).toNat))
      rw [hwrite]
      refine ⟨flight, [.ping _], h.congr rfl rfl rfl, ?_, hwire, .ping htimer hpong⟩
      refine List.forall_mem_singleton.mpr
        ⟨List.forall_mem_singleton.mpr (plain_of_length (by trivial) ?_), trivial⟩
      rw [length_littleEndian]
      decide
    · exact h.quiet rfl rfl rfl (.pingLost htimer hpong)
  · exact h.quiet rfl rfl rfl (.skip htimer)

theorem step_moves (h : ws.Holds flight) {a : Action} (hpossible : a.possible otherOpen = true)
    (ha : a.Careful) {e : Effect} (hstep : ws.step a = some e) :
    ws.Moves otherOpen flight e := by
  cases a with
  | send opcode ops =>
    cases hstep
    exact send_moves h ha
  | receive wants valid =>
    rw [step] at hstep
    split_ifs at hstep with hjoining
    exact receive_moves h (by simpa using hjoining) ha hstep
  | close code reason =>
    rw [step] at hstep
    split_ifs at hstep with hjoining
    cases hstep
    exact close_moves h (length_closePayload fun hlong => hjoining (.inr hlong))
  | closed =>
    rw [step] at hstep
    split_ifs at hstep with hended
    cases hstep
    exact h.quiet rfl rfl rfl (.closed hended.2)
  | timer =>
    rw [step] at hstep
    split_ifs at hstep with htimer
    cases hstep
    exact sendPing_moves h htimer
  | read =>
    obtain ⟨r, hread, rfl⟩ := Option.map_eq_some_iff.mp hstep
    exact read_moves h hread
  | hangUp =>
    cases hstep
    exact h.quiet rfl rfl rfl (.hangUp (by simpa [Action.possible] using hpossible))

theorem holds_new (pingTimer : Bool) (rng : Option (ℕ → Key)) : (new pingTimer rng).Holds [] :=
  ⟨List.forall_mem_nil _, by simp [new], fun _ => .nil, fun _ h => nomatch h⟩

end WebSocket

end Owlchain.Vibe
