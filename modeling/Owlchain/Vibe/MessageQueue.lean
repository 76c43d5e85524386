import Mathlib.Logic.Function.Basic
import Owlchain.Library.Transition
import Owlchain.Vibe.RingBuffer

/-! The message queue of a task. Senders and receivers run in any order; a task that cannot go on
waits for the condition of the queue, and those that changed the queue signal it after they
have left the locked section. Proved for every interleaving: messages that the receivers do
not tell apart are received in the order in which they were sent, none is lost or received
twice, no operation fails, and no task sleeps on while it could go on. -/

namespace Owlchain.Vibe

open Owlchain.Library Loop

/-- What a filter says about a message. -/
inductive Verdict where
  | take
  | leave
  | throws
  deriving DecidableEq

/-- How a search for a message ends. The message of a filter that throws is removed, too. -/
inductive Outcome (α : Type) where
  | nothing
  | taken (msg : α)
  | thrown (msg : α)

/-- The callback for a full queue, if there is one, with its result; it may throw. -/
inductive Crowding where
  | block
  | call (result : Option Bool)
  deriving DecidableEq

structure MessageQueue (α : Type) where
  queue : RingBuffer α
  priorityQueue : RingBuffer α
  maxMailboxSize : ℕ
  onCrowding : Crowding

/-- How the locked section of `send` ends. -/
inductive Sending where
  | sent
  | wait
  | dropped
  | thrown

variable {α : Type}

/-- The loop of `receiveQueue`. -/
def receiveFrom [Inhabited α] (queue : RingBuffer α) (filter : α → Verdict) :
    ℕ → Range → Result (RingBuffer α × Outcome α)
  | passes, range =>
    if range.length = 0 then .ok (queue, .nothing)
    else
      match passes with
      | 0 => .error .unfinished
      | passes + 1 => do
        let msg ← range.front queue
        match filter msg with
        | .take => return (← queue.removeAt range, .taken msg)
        | .leave => receiveFrom queue filter passes (← range.popFront queue)
        | .throws => return (← queue.removeAt range, .thrown msg)

def receiveQueue [Inhabited α] (queue : RingBuffer α) (filter : α → Verdict) :
    Result (RingBuffer α × Outcome α) :=
  receiveFrom queue filter queue.fill queue.opSlice

/-- A full buffer grows by half. -/
def grow [Inhabited α] (queue : RingBuffer α) : Result (RingBuffer α) :=
  if queue.full then queue.setCapacity (queue.buffer.length * 3 / 2) else .ok queue

def enqueue [Inhabited α] (queue : RingBuffer α) (msg : α) : Result (RingBuffer α) := do
  (← grow queue).put msg

namespace MessageQueue

def new [Inhabited α] : MessageQueue α := ⟨.new 32, .new 8, 0, .block⟩

def full (mq : MessageQueue α) : Prop :=
  mq.maxMailboxSize > 0 ∧ mq.queue.fill + mq.priorityQueue.fill ≥ mq.maxMailboxSize

instance (mq : MessageQueue α) : Decidable mq.full :=
  inferInstanceAs
    (Decidable (mq.maxMailboxSize > 0 ∧ mq.queue.fill + mq.priorityQueue.fill ≥ mq.maxMailboxSize))

/-- The locked section of `send` after it has waited. -/
def resumeSend [Inhabited α] (mq : MessageQueue α) (msg : α) : Result (MessageQueue α × Sending) :=
  if mq.full then .ok (mq, .wait)
  else do return ({ mq with queue := ← enqueue mq.queue msg }, .sent)

/-- The locked section of `send`, up to the first wait. -/
def send [Inhabited α] (mq : MessageQueue α) (msg : α) : Result (MessageQueue α × Sending) :=
  if mq.full then
    match mq.onCrowding with
    | .block => .ok (mq, .wait)
    | .call (some true) => .error .assert
    | .call (some false) => .ok (mq, .dropped)
    | .call none => .ok (mq, .thrown)
  else mq.resumeSend msg

def prioritySend [Inhabited α] (mq : MessageQueue α) (msg : α) : Result (MessageQueue α) := do
  return { mq with priorityQueue := ← enqueue mq.priorityQueue msg }

/-- One pass of the loop of `receive`. -/
def receive [Inhabited α] (mq : MessageQueue α) (filter : α → Verdict) :
    Result (MessageQueue α × Outcome α) := do
  let (priorityQueue, outcome) ← receiveQueue mq.priorityQueue filter
  match outcome with
  | .nothing => do
    let (queue, outcome) ← receiveQueue mq.queue filter
    return ({ mq with queue := queue }, outcome)
  | outcome => return ({ mq with priorityQueue := priorityQueue }, outcome)

def clear (mq : MessageQueue α) : Result (MessageQueue α) := do
  return { mq with queue := ← mq.queue.clear, priorityQueue := ← mq.priorityQueue.clear }

end MessageQueue

/-! ### Tasks -/

/-- Where a task is. One that waits has read the number of signals so far; a receiver also
remembers whether it has to signal, and whether it stops waiting after some time. -/
inductive Phase (α : Type) where
  | idle
  | sending (msg : α) (refcount : ℕ)
  | receiving (filter : α → Verdict) (refcount : ℕ) (notify timed : Bool)
  /-- out of the locked section, but the signal is yet to be given -/
  | notifying

/-- The queue and its tasks, with the messages that were sent to and removed from each of the
two buffers. -/
structure Mailbox (τ α : Type) where
  mq : MessageQueue α
  emitCount : ℕ
  phase : τ → Phase α
  sent : List α
  removed : List α
  prioritySent : List α
  priorityRemoved : List α

inductive Event (τ α : Type) where
  | send (task : τ) (msg : α)
  | prioritySend (task : τ) (msg : α)
  | receive (task : τ) (filter : α → Verdict) (timed : Bool)
  | clear (task : τ)
  /-- a signal has been given since the task began to wait -/
  | wake (task : τ)
  /-- the time of a receiver is up -/
  | expire (task : τ)
  | interrupt (task : τ)
  | notify (task : τ)
  | setMaxSize (count : ℕ) (action : Crowding)

namespace Mailbox

variable {τ : Type} [DecidableEq τ]

def start [Inhabited α] : Mailbox τ α := ⟨.new, 0, fun _ => .idle, [], [], [], []⟩

def enter (s : Mailbox τ α) (task : τ) (phase : Phase α) : Mailbox τ α :=
  { s with phase := Function.update s.phase task phase }

def afterSend (s : Mailbox τ α) (task : τ) (msg : α) : MessageQueue α × Sending → Mailbox τ α
  | (mq, .sent) => { s.enter task .notifying with mq := mq, sent := s.sent ++ [msg] }
  | (mq, .wait) => { s.enter task (.sending msg s.emitCount) with mq := mq }
  | (mq, .dropped) => { s.enter task .notifying with mq := mq }
  | (mq, .thrown) => { s.enter task .idle with mq := mq }

/-- Leave `receive`; the signal is given on the way out. -/
def leave (s : Mailbox τ α) (task : τ) (notify : Bool) : Mailbox τ α :=
  s.enter task (if notify then .notifying else .idle)

/-- The message was in the buffer that has become shorter. -/
def take (s : Mailbox τ α) (mq : MessageQueue α) (msg : α) : Mailbox τ α :=
  if mq.priorityQueue.fill < s.mq.priorityQueue.fill then
    { s with mq := mq, priorityRemoved := s.priorityRemoved ++ [msg] }
  else { s with mq := mq, removed := s.removed ++ [msg] }

def afterReceive (s : Mailbox τ α) (task : τ) (filter : α → Verdict) (timed expired : Bool) :
    MessageQueue α × Outcome α → Mailbox τ α
  | (mq, .nothing) =>
    if expired then { s.leave task (decide s.mq.full) with mq := mq }
    else { s.enter task (.receiving filter s.emitCount (decide s.mq.full) timed) with mq := mq }
  | (mq, .taken msg) => (s.take mq msg).leave task (decide s.mq.full)
  | (mq, .thrown msg) => (s.take mq msg).leave task (decide s.mq.full)

/-- What an event does, if it is possible. -/
def step [Inhabited α] (s : Mailbox τ α) : Event τ α → Option (Result (Mailbox τ α))
  | .send task msg =>
    match s.phase task with
    | .idle => some (do return s.afterSend task msg (← s.mq.send msg))
    | _ => none
  | .prioritySend task msg =>
    match s.phase task with
    | .idle => some (do
      return { s.enter task .notifying with
        mq := ← s.mq.prioritySend msg, prioritySent := s.prioritySent ++ [msg] })
    | _ => none
  | .receive task filter timed =>
    match s.phase task with
    | .idle => some (do return s.afterReceive task filter timed false (← s.mq.receive filter))
    | _ => none
  | .clear task =>
    match s.phase task with
    | .idle => some (do
      return { s.enter task .notifying with
        mq := ← s.mq.clear
        removed := s.removed ++ s.mq.queue.view
        priorityRemoved := s.priorityRemoved ++ s.mq.priorityQueue.view })
    | _ => none
  | .wake task =>
    match s.phase task with
    | .sending msg refcount =>
      if s.emitCount = refcount then none
      else some (do return s.afterSend task msg (← s.mq.resumeSend msg))
    | .receiving filter refcount _ timed =>
      if s.emitCount = refcount then none
      else some (do return s.afterReceive task filter timed false (← s.mq.receive filter))
    | _ => none
  | .expire task =>
    match s.phase task with
    | .receiving filter _ _ true =>
      some (do return s.afterReceive task filter true true (← s.mq.receive filter))
    | _ => none
  | .interrupt task =>
    match s.phase task with
    | .sending _ _ => some (.ok (s.enter task .idle))
    | .receiving _ _ notify _ => some (.ok (s.leave task notify))
    | _ => none
  | .notify task =>
    match s.phase task with
    | .notifying => some (.ok { s.enter task .idle with emitCount := s.emitCount + 1 })
    | _ => none
  | .setMaxSize count action =>
    some (.ok { s with mq := { s.mq with maxMailboxSize := count, onCrowding := action } })

/-- The state after an event that is possible and does not fail. -/
def next [Inhabited α] (s : Mailbox τ α) (e : Event τ α) : Option (Mailbox τ α) :=
  (s.step e).bind Except.toOption

end Mailbox

/-! ### The locked sections -/

/-- A buffer that can grow. -/
structure RingBuffer.Growing {α : Type} (q : RingBuffer α) : Prop where
  valid : q.Valid
  two_le : 2 ≤ q.buffer.length

/-- The first message that is not left is removed. -/
inductive Removes {α : Type} (filter : α → Verdict) (msg : α) : List α → List α → Prop
  | intro {before behind : List α} (hbefore : ∀ x ∈ before, filter x = .leave)
      (hmsg : filter msg ≠ .leave) :
    Removes filter msg (before ++ msg :: behind) (before ++ behind)

section Locked
variable {q : RingBuffer α} {filter : α → Verdict}

theorem RingBuffer.Growing.represents (h : q.Growing) : q.Represents ⟨q.buffer.length, q.view⟩ :=
  ⟨h.valid, rfl, rfl⟩

theorem RingBuffer.Represents.growing {f : Fifo α} (h : q.Represents f) (hf : 2 ≤ f.capacity) :
    q.Growing :=
  ⟨h.valid, h.capacity ▸ hf⟩

theorem clear_eq (h : q.Growing) : ∃ q', q.clear = .ok q' ∧ q'.Growing ∧ q'.view = [] := by
  have htwo := h.two_le
  have hclear := RingBuffer.agree_clear h.represents
  rw [Fifo.clear, if_neg (by dsimp only; omega)] at hclear
  obtain ⟨q', hq', hrep⟩ := hclear.exists_ok
  exact ⟨q', hq', hrep.growing htwo, hrep.items⟩

variable [Inhabited α]

theorem growing_new {n : ℕ} (hn : 2 ≤ n) : (RingBuffer.new n : RingBuffer α).Growing :=
  (RingBuffer.represents_new n).growing hn

/-- Afterwards the buffer has room. -/
theorem grow_eq (h : q.Growing) :
    ∃ q' c, grow q = .ok q' ∧ q'.Represents ⟨c, q.view⟩ ∧ q.fill < c ∧ 2 ≤ c := by
  have htwo := h.two_le
  have hle := h.valid.fill_le
  rw [grow]
  split_ifs with hfull
  · have hfill : q.fill = q.buffer.length := hfull
    obtain ⟨q', hq', hrep⟩ := RingBuffer.agree_setCapacity h.represents (q.buffer.length * 3 / 2)
    rw [Fifo.setCapacity, List.take_of_length_le (by rw [RingBuffer.length_view h.valid]; omega)]
      at hrep
    exact ⟨q', _, hq', hrep, by omega, by omega⟩
  · have hfill : q.fill ≠ q.buffer.length := hfull
    exact ⟨q, _, rfl, h.represents, by omega, htwo⟩

theorem enqueue_eq (h : q.Growing) (msg : α) :
    ∃ q', enqueue q msg = .ok q' ∧ q'.Growing ∧ q'.view = q.view ++ [msg] := by
  obtain ⟨q₁, c, hq₁, hrep, hroom, hc⟩ := grow_eq h
  have hput := RingBuffer.agree_put hrep msg
  rw [Fifo.put, if_pos (by rw [RingBuffer.length_view h.valid]; exact hroom)] at hput
  obtain ⟨q', hq', hrep'⟩ := hput.exists_ok
  exact ⟨q', by rw [enqueue, hq₁, ok_bind, hq'], hrep'.growing hc, hrep'.items⟩

/-- `removeAt` for a message with others before it. -/
theorem removeAt_eq (h : q.Growing) {before behind : List α} {msg : α}
    (hview : q.view = before ++ msg :: behind) :
    ∃ q', q.removeAt (q.rangeFrom before.length) = .ok q' ∧ q'.Growing ∧
      q'.view = before ++ behind := by
  have hlen : before.length < q.fill := by
    rw [← RingBuffer.length_view h.valid, hview, List.length_append, List.length_cons]
    omega
  obtain ⟨q', hq', hrep⟩ :=
    RingBuffer.represents_removeAt h.represents hlen (q.fill - before.length)
  refine ⟨q', hq', hrep.growing h.two_le, ?_⟩
  rw [hrep.items, Fifo.removeAt]
  dsimp only
  rw [hview, List.eraseIdx_append_of_length_le le_rfl, Nat.sub_self, List.eraseIdx_cons_zero]

/-- How a message leaves the buffer. -/
def outcome (filter : α → Verdict) (msg : α) : Outcome α :=
  if filter msg = .take then .taken msg else .thrown msg

/-- The messages before the range have been left. -/
theorem receiveFrom_eq (h : q.Growing) (rest : List α) :
    ∀ {passes : ℕ} (before : List α), q.view = before ++ rest →
    (∀ x ∈ before, filter x = .leave) → rest.length ≤ passes →
    (receiveFrom q filter passes (q.rangeFrom before.length) = .ok (q, .nothing) ∧
      ∀ x ∈ q.view, filter x = .leave) ∨
      ∃ q' msg, receiveFrom q filter passes (q.rangeFrom before.length) =
        .ok (q', outcome filter msg) ∧ q'.Growing ∧
        Removes filter msg q.view q'.view := by
  induction rest with
  | nil =>
    intro passes before hview hbefore _
    rw [List.append_nil] at hview
    have hend : (q.rangeFrom before.length).length = 0 := by
      rw [RingBuffer.rangeFrom, ← RingBuffer.length_view h.valid, hview]
      exact Nat.sub_self _
    refine .inl ⟨?_, hview ▸ hbefore⟩
    cases passes <;> rw [receiveFrom, if_pos hend]
  | cons x rest ih =>
    intro passes before hview hbefore hpasses
    obtain ⟨passes, rfl⟩ : ∃ n, passes = n + 1 :=
      Nat.exists_eq_add_one_of_ne_zero (by rw [List.length_cons] at hpasses; omega)
    have hfill : q.fill = before.length + (rest.length + 1) := by
      rw [← RingBuffer.length_view h.valid, hview, List.length_append, List.length_cons]
    have hx : q.view[before.length]? = some x := by
      rw [hview, List.getElem?_append_right le_rfl, Nat.sub_self]
      rfl
    obtain ⟨q', hq', hgrow, hview'⟩ := removeAt_eq h hview
    rw [receiveFrom, if_neg (by rw [RingBuffer.rangeFrom]; dsimp only; omega),
      RingBuffer.front_rangeFrom h.represents hx, ok_bind]
    cases hverdict : filter x with
    | leave =>
      dsimp only
      rw [RingBuffer.popFront_rangeFrom h.valid (by omega), ok_bind]
      have hcons := @ih passes (before ++ [x]) (by rw [hview, List.append_assoc]; rfl)
        (by simpa [or_imp, forall_and, hverdict] using hbefore) (Nat.le_of_succ_le_succ hpasses)
      rwa [List.length_append] at hcons
    | take =>
      refine .inr ⟨q', x, ?_, hgrow, ?_⟩
      · dsimp only
        rw [hq', outcome, if_pos hverdict]
        rfl
      · rw [hview, hview']
        exact .intro hbefore (by rw [hverdict]; decide)
    | throws =>
      refine .inr ⟨q', x, ?_, hgrow, ?_⟩
      · dsimp only
        rw [hq', outcome, if_neg (by rw [hverdict]; decide)]
        rfl
      · rw [hview, hview']
        exact .intro hbefore (by rw [hverdict]; decide)

theorem receiveQueue_eq (h : q.Growing) (filter : α → Verdict) :
    (receiveQueue q filter = .ok (q, .nothing) ∧ ∀ x ∈ q.view, filter x = .leave) ∨
      ∃ q' msg, receiveQueue q filter = .ok (q', outcome filter msg) ∧ q'.Growing ∧
        Removes filter msg q.view q'.view := by
  rw [receiveQueue, RingBuffer.opSlice_eq h.valid]
  exact receiveFrom_eq h q.view [] rfl (fun x hx => nomatch hx) (RingBuffer.length_view h.valid).le

end Locked

/-! ### What an event can do -/

/-- The filter of a receiver that waits. -/
def Phase.Filters (P : (α → Verdict) → Prop) : Phase α → Prop
  | .receiving filter _ _ _ => P filter
  | _ => True

/-- A task has read the number of signals before it waits. -/
def Phase.Past (emitCount : ℕ) : Phase α → Prop
  | .sending _ refcount => refcount ≤ emitCount
  | .receiving _ refcount _ _ => refcount ≤ emitCount
  | _ => True

/-- A task that sleeps could not go on if it were woken. -/
def Phase.Justified (mq : MessageQueue α) (emitCount : ℕ) : Phase α → Prop
  | .sending _ refcount => refcount = emitCount → mq.full
  | .receiving filter refcount _ _ =>
    refcount = emitCount → ∀ x ∈ mq.queue.view ++ mq.priorityQueue.view, filter x = .leave
  | _ => True

namespace Mailbox

variable {τ : Type} [DecidableEq τ]

structure Growing (s : Mailbox τ α) : Prop where
  queue : s.mq.queue.Growing
  priorityQueue : s.mq.priorityQueue.Growing

/-- The filter of a receiver that begins or goes on. -/
def Uses (s : Mailbox τ α) (e : Event τ α) (filter : α → Verdict) : Prop :=
  (∃ task timed, e = .receive task filter timed) ∨
    ∃ task refcount notify timed, s.phase task = .receiving filter refcount notify timed

/-- The ways in which an event changes the state. -/
inductive Move (s : Mailbox τ α) (e : Event τ α) : Mailbox τ α → Prop
  | sent {task : τ} {msg : α} {q : RingBuffer α} (hq : q.Growing)
      (hview : q.view = s.mq.queue.view ++ [msg]) :
    Move s e { s.enter task .notifying with
      mq := { s.mq with queue := q }, sent := s.sent ++ [msg] }
  | prioritySent {task : τ} {msg : α} {q : RingBuffer α} (hq : q.Growing)
      (hview : q.view = s.mq.priorityQueue.view ++ [msg]) :
    Move s e { s.enter task .notifying with
      mq := { s.mq with priorityQueue := q }, prioritySent := s.prioritySent ++ [msg] }
  | blocked {task : τ} {msg : α} (hphase : s.phase task ≠ .notifying) (hfull : s.mq.full) :
    Move s e (s.enter task (.sending msg s.emitCount))
  | left {task : τ} (notify : Bool) (hphase : s.phase task ≠ .notifying) :
    Move s e (s.leave task notify)
  | removed {task : τ} {filter : α → Verdict} {msg : α} {q : RingBuffer α}
      (hphase : s.phase task ≠ .notifying) (huses : s.Uses e filter) (hq : q.Growing)
      (hremoves : Removes filter msg s.mq.queue.view q.view) :
    Move s e (leave { s with
      mq := { s.mq with queue := q }, removed := s.removed ++ [msg] } task (decide s.mq.full))
  | priorityRemoved {task : τ} {filter : α → Verdict} {msg : α} {q : RingBuffer α}
      (hphase : s.phase task ≠ .notifying) (huses : s.Uses e filter) (hq : q.Growing)
      (hremoves : Removes filter msg s.mq.priorityQueue.view q.view) :
    Move s e (leave { s with
      mq := { s.mq with priorityQueue := q }, priorityRemoved := s.priorityRemoved ++ [msg] }
      task (decide s.mq.full))
  | waiting {task : τ} {filter : α → Verdict} {timed : Bool} (hphase : s.phase task ≠ .notifying)
      (huses : s.Uses e filter)
      (hleave : ∀ x ∈ s.mq.queue.view ++ s.mq.priorityQueue.view, filter x = .leave) :
    Move s e (s.enter task (.receiving filter s.emitCount (decide s.mq.full) timed))
  | cleared {task : τ} {q p : RingBuffer α} (hq : q.Growing) (hqview : q.view = [])
      (hp : p.Growing) (hpview : p.view = []) :
    Move s e { s.enter task .notifying with
      mq := { s.mq with queue := q, priorityQueue := p }
      removed := s.removed ++ s.mq.queue.view
      priorityRemoved := s.priorityRemoved ++ s.mq.priorityQueue.view }
  | notified {task : τ} : Move s e { s.enter task .idle with emitCount := s.emitCount + 1 }
  | resized {count : ℕ} {action : Crowding} (he : e = .setMaxSize count action) :
    Move s e { s with mq := { s.mq with maxMailboxSize := count, onCrowding := action } }

/-! ### What every event keeps -/

theorem length_of_removes {filter : α → Verdict} {msg : α} {l l' : List α}
    (h : Removes filter msg l l') :
    l'.length < l.length := by
  cases h with
  | intro _ _ =>
    rw [List.length_append, List.length_append, List.length_cons]
    omega

section Kept
variable {s t : Mailbox τ α} {e : Event τ α}

theorem forall_enter {P : Phase α → Prop} (hs : ∀ task, P (s.phase task)) {task : τ}
    {phase : Phase α} (hphase : P phase) :
    ∀ task', P ((s.enter task phase).phase task') := by
  intro task'
  change P (Function.update s.phase task phase task')
  rw [Function.update_apply]
  split_ifs
  · exact hphase
  · exact hs task'

theorem Move.growing (h : s.Move e t) (hs : s.Growing) : t.Growing := by
  cases h with
  | sent hq _ => exact ⟨hq, hs.priorityQueue⟩
  | prioritySent hq _ => exact ⟨hs.queue, hq⟩
  | blocked | left | waiting | notified | resized => exact ⟨hs.queue, hs.priorityQueue⟩
  | removed _ _ hq _ => exact ⟨hq, hs.priorityQueue⟩
  | priorityRemoved _ _ hq _ => exact ⟨hs.queue, hq⟩
  | cleared hq _ hp _ => exact ⟨hq, hp⟩

/-- A filter that does not tell the messages of a class apart. -/
def Uniform (C : α → Bool) (filter : α → Verdict) : Prop :=
  ∀ x y, C x = true → C y = true → filter x = filter y

theorem filter_of_removes {C : α → Bool} {filter : α → Verdict} (hfilter : Uniform C filter)
    {msg : α} {l l' : List α} (h : Removes filter msg l l') :
    l.filter C = [msg].filter C ++ l'.filter C := by
  cases h with
  | @intro before behind hbefore hmsg =>
    by_cases hC : C msg = true
    · -- nothing of the class is before the message
      have hnone : before.filter C = [] := List.filter_eq_nil_iff.mpr fun x hx hCx =>
        hmsg ((hfilter msg x hC hCx).trans (hbefore x hx))
      rw [List.filter_append, List.filter_append, hnone, List.filter_cons_of_pos hC,
        List.filter_cons_of_pos hC]
      rfl
    · rw [List.filter_append, List.filter_append, List.filter_cons_of_neg hC,
        List.filter_cons_of_neg hC]
      rfl

/-- The messages of a class were removed in their order, and the others are still there. -/
structure Ordered (C : α → Bool) (s : Mailbox τ α) : Prop where
  queue : s.sent.filter C = s.removed.filter C ++ s.mq.queue.view.filter C
  priorityQueue : s.prioritySent.filter C =
    s.priorityRemoved.filter C ++ s.mq.priorityQueue.view.filter C
  filters : ∀ task, (s.phase task).Filters (Uniform C)

omit [DecidableEq τ] in
theorem Uses.uniform {C : α → Bool} {filter : α → Verdict} (h : s.Uses e filter) (hs : Ordered C s)
    (he : ∀ task filter timed, e = .receive task filter timed → Uniform C filter) :
    Uniform C filter := by
  rcases h with ⟨task, timed, heq⟩ | ⟨task, refcount, notify, timed, hphase⟩
  · exact he task filter timed heq
  · have := hs.filters task
    rwa [hphase] at this

theorem Move.ordered {C : α → Bool} (h : s.Move e t) (hs : Ordered C s)
    (he : ∀ task filter timed, e = .receive task filter timed → Uniform C filter) :
    Ordered C t := by
  have hleave : ∀ (task : τ) (notify : Bool) task',
      Phase.Filters (Uniform C) ((s.leave task notify).phase task') :=
    fun task notify => forall_enter hs.filters (by cases notify <;> trivial)
  cases h with
  | sent hq hview =>
    refine ⟨?_, hs.priorityQueue, forall_enter hs.filters trivial⟩
    dsimp only
    rw [hview, List.filter_append, List.filter_append, hs.queue, List.append_assoc]
    rfl
  | prioritySent hq hview =>
    refine ⟨hs.queue, ?_, forall_enter hs.filters trivial⟩
    dsimp only
    rw [hview, List.filter_append, List.filter_append, hs.priorityQueue, List.append_assoc]
    rfl
  | blocked _ _ => exact ⟨hs.queue, hs.priorityQueue, forall_enter hs.filters trivial⟩
  | left notify _ => exact ⟨hs.queue, hs.priorityQueue, hleave _ _⟩
  | removed _ huses _ hremoves =>
    refine ⟨?_, hs.priorityQueue, hleave _ _⟩
    have hfilter := filter_of_removes (huses.uniform hs he) hremoves
    exact hs.queue.trans (by rw [hfilter, ← List.append_assoc, ← List.filter_append]; rfl)
  | priorityRemoved _ huses _ hremoves =>
    refine ⟨hs.queue, ?_, hleave _ _⟩
    have hfilter := filter_of_removes (huses.uniform hs he) hremoves
    exact hs.priorityQueue.trans (by rw [hfilter, ← List.append_assoc, ← List.filter_append]; rfl)
  | waiting _ huses _ =>
    exact ⟨hs.queue, hs.priorityQueue, forall_enter hs.filters (huses.uniform hs he)⟩
  | cleared _ hqview _ hpview =>
    refine ⟨?_, ?_, forall_enter hs.filters trivial⟩
    · refine hs.queue.trans ?_
      dsimp only
      rw [hqview, List.filter_append, List.filter_nil, List.append_nil]
    · refine hs.priorityQueue.trans ?_
      dsimp only
      rw [hpview, List.filter_append, List.filter_nil, List.append_nil]
  | notified => exact ⟨hs.queue, hs.priorityQueue, forall_enter hs.filters trivial⟩
  | resized _ => exact ⟨hs.queue, hs.priorityQueue, hs.filters⟩

/-- Every task that sleeps has to, or will be woken. -/
structure Awake (s : Mailbox τ α) : Prop where
  past : ∀ task, (s.phase task).Past s.emitCount
  justified : (∃ task, s.phase task = .notifying) ∨
    ∀ task, (s.phase task).Justified s.mq s.emitCount

theorem notifying_enter (task : τ) : ∃ task', (s.enter task .notifying).phase task' = .notifying :=
  ⟨task, Function.update_self ..⟩

/-- A task that is to signal stays so while others move. -/
theorem notifying_of_ne {task : τ} {phase : Phase α} (hphase : s.phase task ≠ .notifying)
    (h : ∃ task', s.phase task' = .notifying) :
    ∃ task', (s.enter task phase).phase task' = .notifying := by
  obtain ⟨task', htask⟩ := h
  refine ⟨task', (Function.update_of_ne ?_ ..).trans htask⟩
  rintro rfl
  exact hphase htask

/-- Fewer messages do not wake a receiver, and a sender sleeps only if the queue was full. -/
theorem justified_of_fewer {mq mq' : MessageQueue α} {emitCount : ℕ} (hfull : ¬ mq.full)
    (hsub : ∀ x ∈ mq'.queue.view ++ mq'.priorityQueue.view,
      x ∈ mq.queue.view ++ mq.priorityQueue.view) {phase : Phase α}
    (h : phase.Justified mq emitCount) : phase.Justified mq' emitCount := by
  cases phase with
  | sending msg refcount => exact fun heq => absurd (h heq) hfull
  | receiving filter refcount notify timed => exact fun heq x hx => h heq x (hsub x hx)
  | idle | notifying => trivial

theorem Awake.leave (hs : s.Awake) {task : τ} (hphase : s.phase task ≠ .notifying) (notify : Bool) :
    (s.leave task notify).Awake := by
  cases notify with
  | true => exact ⟨forall_enter hs.past trivial, .inl (notifying_enter task)⟩
  | false => exact ⟨forall_enter hs.past trivial,
      hs.justified.imp (notifying_of_ne hphase) fun h => forall_enter h trivial⟩

/-- A message is removed: if the queue was full, the task that removes it signals. -/
theorem Awake.remove (hs : s.Awake) {task : τ} (hphase : s.phase task ≠ .notifying)
    {t : Mailbox τ α} (hemit : t.emitCount = s.emitCount) (htasks : t.phase = s.phase)
    (hsub : ∀ x ∈ t.mq.queue.view ++ t.mq.priorityQueue.view,
      x ∈ s.mq.queue.view ++ s.mq.priorityQueue.view) :
    (t.leave task (decide s.mq.full)).Awake := by
  have hpast : ∀ task, (t.phase task).Past t.emitCount := by rw [htasks, hemit]; exact hs.past
  by_cases hfull : s.mq.full
  · rw [decide_eq_true hfull]
    exact ⟨forall_enter hpast trivial, .inl (notifying_enter task)⟩
  · rw [decide_eq_false hfull]
    refine ⟨forall_enter hpast trivial, ?_⟩
    rcases hs.justified with hnotifying | hall
    · exact .inl (notifying_of_ne (htasks ▸ hphase) (htasks ▸ hnotifying))
    · refine .inr (forall_enter (fun task' => ?_) trivial)
      rw [htasks]
      change (s.phase task').Justified t.mq t.emitCount
      rw [hemit]
      exact justified_of_fewer hfull hsub (hall task')

end Kept

section Runs

variable [Inhabited α] {s : Mailbox τ α} {e : Event τ α} {task : τ}

theorem move_resumeSend (hs : s.Growing) (hphase : s.phase task ≠ .notifying) (msg : α) :
    ∃ t, (do return s.afterSend task msg (← s.mq.resumeSend msg)) = .ok t ∧ s.Move e t := by
  rw [MessageQueue.resumeSend]
  by_cases hfull : s.mq.full
  · rw [if_pos hfull]
    exact ⟨_, rfl, .blocked hphase hfull⟩
  · obtain ⟨q, henqueue, hq, hview⟩ := enqueue_eq hs.queue msg
    rw [if_neg hfull, henqueue]
    exact ⟨_, rfl, .sent hq hview⟩

/-- The callback has let a sender go on although the queue is full. -/
def Overrun (s : Mailbox τ α) : Prop := s.mq.full ∧ s.mq.onCrowding = .call (some true)

theorem move_send (hs : s.Growing) (hphase : s.phase task ≠ .notifying) (msg : α) :
    (∃ t, (do return s.afterSend task msg (← s.mq.send msg)) = .ok t ∧ s.Move e t) ∨
      (do return s.afterSend task msg (← s.mq.send msg)) = .error .assert ∧ s.Overrun := by
  rw [MessageQueue.send]
  by_cases hfull : s.mq.full
  · rw [if_pos hfull]
    cases haction : s.mq.onCrowding with
    | block => exact .inl ⟨_, rfl, .blocked hphase hfull⟩
    | call result =>
      rcases result with _ | _ | _
      · exact .inl ⟨_, rfl, .left false hphase⟩
      · exact .inl ⟨_, rfl, .left true hphase⟩
      · exact .inr ⟨rfl, hfull, haction⟩
  · rw [if_neg hfull]
    exact .inl (move_resumeSend hs hphase msg)

theorem move_receive (hs : s.Growing) (hphase : s.phase task ≠ .notifying) {filter : α → Verdict}
    (huses : s.Uses e filter) (timed expired : Bool) :
    ∃ t, (do return s.afterReceive task filter timed expired (← s.mq.receive filter)) = .ok t ∧
      s.Move e t := by
  have hafter : ∀ mq msg, s.afterReceive task filter timed expired (mq, outcome filter msg) =
      (s.take mq msg).leave task (decide s.mq.full) := by
    intro mq msg
    rw [outcome]
    split_ifs <;> rfl
  rw [MessageQueue.receive]
  rcases receiveQueue_eq hs.priorityQueue filter with ⟨hnothing, hleave⟩ |
    ⟨p, msg, hreceive, hp, hremoves⟩
  · rw [hnothing, ok_bind]
    rcases receiveQueue_eq hs.queue filter with ⟨hnothing', hleave'⟩ |
      ⟨q, msg, hreceive, hq, hremoves⟩
    · rw [hnothing']
      cases expired with
      | true => exact ⟨_, rfl, .left _ hphase⟩
      | false =>
        refine ⟨_, rfl, .waiting hphase huses fun x hx => ?_⟩
        exact (List.mem_append.mp hx).elim (hleave' x) (hleave x)
    · refine ⟨(s.take { s.mq with queue := q } msg).leave task (decide s.mq.full), ?_, ?_⟩
      · rw [← hafter]
        dsimp only
        rw [hreceive]
        rfl
      · rw [take, if_neg (lt_irrefl _)]
        exact .removed hphase huses hq hremoves
  · refine ⟨(s.take { s.mq with priorityQueue := p } msg).leave task (decide s.mq.full), ?_, ?_⟩
    · rw [← hafter, hreceive, outcome]
      split_ifs <;> rfl
    · have hshorter := length_of_removes hremoves
      rw [RingBuffer.length_view hp.valid, RingBuffer.length_view hs.priorityQueue.valid]
        at hshorter
      rw [take, if_pos hshorter]
      exact .priorityRemoved hphase huses hp hremoves

/-- No event fails, unless the callback lets a sender go on while the queue is full. -/
theorem step_moves (hs : s.Growing) {r : Result (Mailbox τ α)} (hstep : s.step e = some r) :
    (∃ t, r = .ok t ∧ s.Move e t) ∨ r = .error .assert ∧ s.Overrun := by
  cases e with
  | send task msg =>
    cases hphase : s.phase task with
    | idle =>
      simp only [step, hphase, Option.some.injEq] at hstep
      subst hstep
      exact move_send hs (by rw [hphase]; simp) msg
    | _ => simp [step, hphase] at hstep
  | prioritySend task msg =>
    cases hphase : s.phase task with
    | idle =>
      simp only [step, hphase, Option.some.injEq] at hstep
      obtain ⟨q, henqueue, hq, hview⟩ := enqueue_eq hs.priorityQueue msg
      rw [MessageQueue.prioritySend, henqueue] at hstep
      subst hstep
      exact .inl ⟨_, rfl, .prioritySent hq hview⟩
    | _ => simp [step, hphase] at hstep
  | receive task filter timed =>
    cases hphase : s.phase task with
    | idle =>
      simp only [step, hphase, Option.some.injEq] at hstep
      subst hstep
      exact .inl (move_receive hs (by rw [hphase]; simp) (.inl ⟨task, timed, rfl⟩) timed false)
    | _ => simp [step, hphase] at hstep
  | clear task =>
    cases hphase : s.phase task with
    | idle =>
      simp only [step, hphase, Option.some.injEq] at hstep
      obtain ⟨q, hclear, hq, hqview⟩ := clear_eq hs.queue
      obtain ⟨p, hclear', hp, hpview⟩ := clear_eq hs.priorityQueue
      rw [MessageQueue.clear, hclear, ok_bind, hclear'] at hstep
      subst hstep
      exact .inl ⟨_, rfl, .cleared hq hqview hp hpview⟩
    | _ => simp [step, hphase] at hstep
  | wake task =>
    cases hphase : s.phase task with
    | sending msg refcount =>
      simp only [step, hphase] at hstep
      split_ifs at hstep
      rw [Option.some.injEq] at hstep
      subst hstep
      exact .inl (move_resumeSend hs (by rw [hphase]; simp) msg)
    | receiving filter refcount notify timed =>
      simp only [step, hphase] at hstep
      split_ifs at hstep
      rw [Option.some.injEq] at hstep
      subst hstep
      exact .inl (move_receive hs (by rw [hphase]; simp) (.inr ⟨task, _, _, _, hphase⟩) timed false)
    | _ => simp [step, hphase] at hstep
  | expire task =>
    cases hphase : s.phase task with
    | receiving filter refcount notify timed =>
      cases timed with
      | true =>
        simp only [step, hphase, Option.some.injEq] at hstep
        subst hstep
        exact .inl (move_receive hs (by rw [hphase]; simp) (.inr ⟨task, _, _, _, hphase⟩) true true)
      | false => simp [step, hphase] at hstep
    | _ => simp [step, hphase] at hstep
  | interrupt task =>
    cases hphase : s.phase task with
    | sending msg refcount =>
      simp only [step, hphase, Option.some.injEq] at hstep
      subst hstep
      exact .inl ⟨_, rfl, .left false (by rw [hphase]; simp)⟩
    | receiving filter refcount notify timed =>
      simp only [step, hphase, Option.some.injEq] at hstep
      subst hstep
      exact .inl ⟨_, rfl, .left notify (by rw [hphase]; simp)⟩
    | _ => simp [step, hphase] at hstep
  | notify task =>
    cases hphase : s.phase task with
    | notifying =>
      simp only [step, hphase, Option.some.injEq] at hstep
      subst hstep
      exact .inl ⟨_, rfl, .notified⟩
    | _ => simp [step, hphase] at hstep
  | setMaxSize count action =>
    simp only [step, Option.some.injEq] at hstep
    subst hstep
    exact .inl ⟨_, rfl, .resized rfl⟩

theorem next_moves (hs : s.Growing) {t : Mailbox τ α} (hnext : s.next e = some t) : s.Move e t := by
  obtain ⟨r, hstep, hr⟩ := Option.bind_eq_some_iff.mp hnext
  rcases step_moves hs hstep with ⟨t', rfl, hmove⟩ | ⟨rfl, -⟩
  · obtain rfl := Option.some.inj hr
    exact hmove
  · cases hr

omit [DecidableEq τ] in
theorem growing_start : (start : Mailbox τ α).Growing :=
  ⟨growing_new (by decide), growing_new (by decide)⟩

/-- Messages of a class that no receiver tells apart are removed in the order in which they
were sent, and what was sent is either removed or still there. -/
theorem mailbox_keeps_order (C : α → Bool) {events : List (Event τ α)}
    (hevents : ∀ task filter timed, .receive task filter timed ∈ events → Uniform C filter)
    {s : Mailbox τ α}
    (hrun : Transition.run next start events = some s) :
    s.sent.filter C = s.removed.filter C ++ s.mq.queue.view.filter C ∧
      s.prioritySent.filter C = s.priorityRemoved.filter C ++ s.mq.priorityQueue.view.filter C := by
  have hkept : s.Growing ∧ Ordered C s := by
    refine Transition.run_invariant
      (P := fun _ e => ∀ task filter timed, e = .receive task filter timed → Uniform C filter)
      (fun s => s.Growing ∧ Ordered C s) ?_ events hrun ?_ ?_
    · intro s e t hnext he hs
      have hmove := next_moves hs.1 hnext
      exact ⟨hmove.growing hs.1, hmove.ordered hs.2 he⟩
    · exact (Transition.along_iff_forall events hrun).mpr fun e he task filter timed heq =>
        hevents task filter timed (heq ▸ he)
    · exact ⟨growing_start, rfl, rfl, fun _ => trivial⟩
  exact ⟨hkept.2.queue, hkept.2.priorityQueue⟩

/-- An even number is taken before an odd one that was sent earlier. -/
theorem mailbox_keeps_order_even : ∃ s : Mailbox Bool ℕ,
    Transition.run next start [.send false 1, .notify false, .send false 2,
      .receive true (fun n => if n % 2 = 0 then .take else .leave) false] = some s ∧
      s.sent.filter (· % 2 = 0) = s.removed.filter (· % 2 = 0) ++
        s.mq.queue.view.filter (· % 2 = 0) := by
  obtain ⟨s, hs⟩ := Option.isSome_iff_exists.mp (show (Transition.run next (start : Mailbox Bool ℕ)
    [.send false 1, .notify false, .send false 2,
      .receive true (fun n => if n % 2 = 0 then .take else .leave) false]).isSome = true from rfl)
  refine ⟨s, hs, (mailbox_keeps_order (· % 2 = 0) (fun task filter timed hmem => ?_) hs).1⟩
  simp only [List.mem_cons, reduceCtorEq, Event.receive.injEq, List.not_mem_nil, or_false, false_or]
    at hmem
  obtain ⟨-, rfl, -⟩ := hmem
  intro x y hx hy
  simp only [decide_eq_true_eq] at hx hy
  exact (if_pos hx).trans (if_pos hy).symm

/-- A sender that waits is not woken when the queue is made larger. -/
example : ∃ s : Mailbox Bool ℕ, Transition.run next start
    [.setMaxSize 1 .block, .send false 7, .notify false, .send true 8, .setMaxSize 2 .block] =
      some s ∧
      (∀ task, s.phase task ≠ .notifying) ∧ ¬ (s.phase true).Justified s.mq s.emitCount := by
  refine ⟨_, rfl, fun task => ?_, fun hfull => ?_⟩
  · cases task <;> rintro ⟨⟩
  · exact absurd (hfull rfl) (by decide)

end Runs

end Mailbox

end Owlchain.Vibe
