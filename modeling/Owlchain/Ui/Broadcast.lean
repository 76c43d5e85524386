import Mathlib.Data.List.Perm.Basic
import Mathlib.Data.Rat.Defs
import Owlchain.Ui.Sockets

/-! The broadcast of the `listenOCP` callback. The loop `foreach (socket; sockets)` fixes
its slice when it starts; each `socket.send` may switch to the connection handlers, which
append to `sockets` and remove from it. A removal moves elements in the block that the
loop still reads, and an exception of one `send` ends the loop. The main result names the
steps under which every socket that stays connected is sent the message exactly once. -/

namespace Owlchain.Ui

open Owlchain.Crypto Owlchain.Library

structure ReceiveBos where
  type : Text
  receiverAccountAddress : Text
  senderAccountAddress : Text
  amount : ℚ
  deriving DecidableEq

def receiveBos : ReceiveBos where
  type := "receiveBOS".toList
  receiverAccountAddress := "BOS-AAAAA-BBBBB-CCCCCCC".toList
  senderAccountAddress := "BOS-XXXXX-YYYYY-ZZZZZZZ".toList
  amount := 10000

/-- The loop over the slice `block`, `length`, together with the server it runs in. -/
structure Broadcast where
  server : Server
  block : ℕ
  length : ℕ
  /-- the next element to read -/
  index : ℕ
  /-- the socket whose `send` is under way, and whether it was closed when called -/
  pending : Option (Socket × Bool)
  sent : List (Socket × ReceiveBos)
  /-- an exception of `send` has ended the loop -/
  stopped : Bool

namespace Broadcast

def start (srv : Server) : Broadcast :=
  ⟨srv, srv.sockets.block, srv.sockets.length, 0, none, [], false⟩

/-- The cells that the loop has not read, as they are now. -/
def unread (b : Broadcast) : List Socket :=
  ((b.server.sockets.cells b.block).take b.length).drop b.index

/-- The sockets that the loop has still to serve. -/
def outstanding (b : Broadcast) : List Socket := b.pending.toList.map (·.1) ++ b.unread

def Ended (b : Broadcast) : Prop := b.stopped = true ∨ b.pending = none ∧ b.length ≤ b.index

instance : DecidablePred Ended := fun _ => inferInstanceAs (Decidable (_ ∨ _ ∧ _))

inductive Event where
  /-- a step of the connection handlers -/
  | server (e : Ui.Event)
  /-- the loop reads its next element and calls `send` -/
  | call
  /-- `send` returns -/
  | sent
  /-- `send` throws -/
  | throws
  deriving DecidableEq

/-- The handlers run during a `send` and after the loop. `send` throws if the socket was
closed before the call, and otherwise only if the connection has ended meanwhile. -/
def step (b : Broadcast) : Event → Option Broadcast
  | .server e =>
    if b.pending.isSome ∨ b.Ended then (b.server.step e).map fun srv => { b with server := srv }
    else none
  | .call =>
    if b.stopped then none
    else match b.pending, b.unread with
      | none, s :: _ =>
        some { b with pending := some (s, b.server.sentCloseFrame s), index := b.index + 1 }
      | _, _ => none
  | .sent => match b.pending with
    | some (s, false) => some { b with pending := none, sent := b.sent ++ [(s, receiveBos)] }
    | _ => none
  | .throws => match b.pending with
    | some (s, _) =>
      if b.server.connected s then none else some { b with pending := none, stopped := true }
    | none => none

/-- Everything a step of the broadcast can do. -/
theorem step_cases {b t : Broadcast} {e : Event} (h : b.step e = some t) :
    (∃ f srv, e = .server f ∧ b.server.step f = some srv ∧ t = { b with server := srv }) ∨
    (∃ s rest, e = .call ∧ b.stopped = false ∧ b.pending = none ∧ b.unread = s :: rest ∧
      t = { b with pending := some (s, b.server.sentCloseFrame s), index := b.index + 1 }) ∨
    (∃ s, e = .sent ∧ b.pending = some (s, false) ∧
      t = { b with pending := none, sent := b.sent ++ [(s, receiveBos)] }) ∨
    (∃ s closed, e = .throws ∧ b.pending = some (s, closed) ∧ b.server.connected s = false ∧
      t = { b with pending := none, stopped := true }) := by
  cases e with
  | server f =>
    rw [step] at h
    split_ifs at h
    obtain ⟨srv, hsrv, ht⟩ := Option.map_eq_some_iff.mp h
    exact .inl ⟨f, srv, rfl, hsrv, ht.symm⟩
  | call =>
    rw [step] at h
    split_ifs at h with hstopped
    split at h
    · rename_i s rest hpending hunread
      exact .inr (.inl ⟨s, rest, rfl, Bool.eq_false_iff.mpr hstopped, hpending, hunread,
        (Option.some.inj h).symm⟩)
    · cases h
  | sent =>
    rw [step] at h
    split at h
    · rename_i s hpending
      exact .inr (.inr (.inl ⟨s, rfl, hpending, (Option.some.inj h).symm⟩))
    · cases h
  | throws =>
    rw [step] at h
    split at h
    · rename_i s closed hpending
      split_ifs at h with hconn
      exact .inr (.inr (.inr ⟨s, closed, rfl, hpending, Bool.eq_false_iff.mpr hconn,
        (Option.some.inj h).symm⟩))
    · cases h

/-- A removal at position `k` leaves alone what the loop has still to read: it works on
another block, or moves no unread cell, or moves unread cells only and the list has grown
past the end of the loop's slice. -/
def Spares (b : Broadcast) (k : ℕ) : Prop :=
  b.server.sockets.block ≠ b.block ∨ b.length ≤ b.index ∨
    b.server.sockets.length ≤ max b.index k + 1 ∨ b.index ≤ k ∧ b.length < b.server.sockets.length

instance (b : Broadcast) (k : ℕ) : Decidable (b.Spares k) :=
  inferInstanceAs (Decidable (_ ∨ _ ∨ _ ∨ _ ∧ _))

/-- A step that does no harm to the loop: a handler that leaves spares the unread cells,
and `send` throws only when no connected socket is left to read. -/
def Harmless (b : Broadcast) : Event → Prop
  | .server (.answer s _) =>
    ¬ b.Ended → (b.server.task s).closes → b.Spares (b.server.sockets.view.idxOf s)
  | .throws => ∀ s ∈ b.unread, b.server.connected s = false
  | _ => True

instance (b : Broadcast) : DecidablePred b.Harmless
  | .server (.answer s _) => inferInstanceAs (Decidable
      (¬ b.Ended → (b.server.task s).closes → b.Spares (b.server.sockets.view.idxOf s)))
  | .throws => inferInstanceAs (Decidable (∀ s ∈ b.unread, b.server.connected s = false))
  | .server (.accept ..) | .server (.hangUp ..) | .server (.throws _) | .call | .sent =>
    .isTrue trivial

end Broadcast

/-! ### A removal under the loop -/

section Removal
variable {α : Type*} {l l' : List α} {i k n t : ℕ}

theorem Shifted.unread_eq (h : Shifted l l' k t) (ht : k + t ≤ max i k) :
    (l'.take n).drop i = (l.take n).drop i := by
  apply List.ext_getElem?
  intro j
  simp only [List.getElem?_drop, List.getElem?_take]
  split_ifs
  · rw [h, if_neg (by omega)]
  · rfl

/-- The unread part loses the removed cell and gains the one behind its end. -/
theorem Shifted.unread_eraseIdx (h : Shifted l l' k t) (hi : i ≤ k) (hk : k < n) (hn : n ≤ k + t) :
    (l'.take n).drop i = ((l.take (n + 1)).drop i).eraseIdx (k - i) := by
  apply List.ext_getElem?
  intro j
  simp only [List.getElem?_eraseIdx, List.getElem?_drop, List.getElem?_take, h (i + j)]
  by_cases hj : j < k - i
  · rw [if_pos (by omega), if_neg (by omega : ¬ (k ≤ i + j ∧ _)), if_pos hj, if_pos (by omega)]
  · rw [if_neg hj]
    by_cases hjn : i + j < n
    · rw [if_pos hjn, if_pos (by omega), if_pos (by omega), Nat.add_assoc]
    · rw [if_neg hjn, if_neg (by omega)]

theorem Shifted.count_unread [DecidableEq α] (h : Shifted l l' k t) {s x : α} (hx : l[k]? = some x)
    (hsx : s ≠ x) (hi : i ≤ k) (hn : n ≤ k + t) (hs : l[n]? ≠ some s) :
    ((l'.take n).drop i).count s = ((l.take n).drop i).count s := by
  by_cases hk : k < n
  · have hget : ((l.take (n + 1)).drop i)[k - i]? = some x := by
      rw [List.getElem?_drop, List.getElem?_take_of_lt (by omega),
        show i + (k - i) = k by omega, hx]
    obtain ⟨hlt, hget⟩ := List.getElem?_eq_some_iff.mp hget
    have hperm := (List.getElem_cons_eraseIdx_perm hlt).count_eq s
    rw [hget, List.count_cons_of_ne hsx.symm] at hperm
    have hbehind : l[n]?.toList.count s = 0 := by
      rw [List.count_eq_zero, Option.mem_toList]
      exact hs
    have hlen := (List.getElem?_eq_some_iff.mp hx).1
    rw [h.unread_eraseIdx hi hk hn, hperm, List.take_add_one,
      List.drop_append_of_le_length (by rw [List.length_take]; omega), List.count_append, hbehind,
      Nat.add_zero]
  · congr 1
    apply List.ext_getElem?
    intro j
    simp only [List.getElem?_drop, List.getElem?_take]
    split_ifs
    · rw [h, if_neg (by omega)]
    · rfl

theorem mem_drop_of_eraseIdx {s : α} (h : s ∈ (l.eraseIdx k).drop n) :
    s ∈ l.drop n := by
  obtain ⟨j, hj⟩ := List.mem_iff_getElem?.mp h
  rw [List.getElem?_drop, List.getElem?_eraseIdx] at hj
  split_ifs at hj
  · exact List.mem_of_getElem? (i := j) (by rw [List.getElem?_drop, hj])
  · exact List.mem_of_getElem? (i := j + 1) (by rw [List.getElem?_drop, ← Nat.add_assoc, hj])

end Removal

/-! ### Exactly once -/

namespace Broadcast

/-- While the loop runs, every socket of the list at its start that is still connected has
been served once or is outstanding once. -/
structure Progress (members : List Socket) (b : Broadcast) : Prop where
  allocated : b.block < b.server.sockets.allocated
  inside : b.length ≤ (b.server.sockets.cells b.block).length
  beyond : b.server.sockets.block = b.block →
    ∀ s ∈ members, s ∉ b.server.sockets.view.drop b.length
  once : ∀ s ∈ members, b.server.connected s →
    b.sent.count (s, receiveBos) + b.outstanding.count s = 1

/-- `members` is the list at the start of the loop. What an exception has ended stays as it
was then, so nothing is asked of the unread cells any more. -/
structure Inv (members : List Socket) (b : Broadcast) : Prop where
  server : b.server.Inv
  started : ∀ s ∈ members, b.server.task s ≠ .idle
  quiet : b.stopped = true → b.pending = none
  progress : b.stopped = false → Progress members b
  delivered : b.stopped = true → ∀ s ∈ members, b.server.connected s →
    b.sent.count (s, receiveBos) = 1

variable {members : List Socket} {b : Broadcast}

theorem inv_start {srv : Server} (h : srv.Inv) : Inv srv.sockets.view (start srv) := by
  refine ⟨h, fun s hs hidle => ?_, fun _ => rfl,
    fun _ => ⟨srv.sockets.block_lt, srv.sockets.length_le, fun _ s _ => ?_, fun s hs _ => ?_⟩,
    fun hstopped => by cases hstopped⟩
  · have hcount := h.count s
    rw [show srv.task s = .idle from hidle, Task.listed, List.count_eq_zero] at hcount
    exact hcount hs
  · simp [start, DynArray.view]
  · have hone := h.count_eq_one hs
    simpa [start, outstanding, unread, DynArray.view] using hone

/-- A step of the handlers that keeps what is unread keeps the progress. -/
theorem Progress.of_unread (h : Progress members b) {f : Ui.Event} {srv : Server}
    (hf : b.server.step f = some srv) (hstarted : ∀ s ∈ members, b.server.task s ≠ .idle)
    (hallocated : b.block < srv.sockets.allocated)
    (hinside : b.length ≤ (srv.sockets.cells b.block).length)
    (hbeyond : srv.sockets.block = b.block → ∀ s ∈ members, s ∉ srv.sockets.view.drop b.length)
    (hunread : ∀ s ∈ members, b.server.connected s →
      (((srv.sockets.cells b.block).take b.length).drop b.index).count s = b.unread.count s) :
    Progress members { b with server := srv } := by
  refine ⟨hallocated, hinside, hbeyond, fun s hs hconn => ?_⟩
  have hconn' := Server.connected_of_step hf (hstarted s hs) hconn
  have honce := h.once s hs hconn'
  rw [outstanding, List.count_append] at honce ⊢
  rw [← honce, ← hunread s hs hconn']
  rfl

theorem Progress.push (h : Progress members b) {f : Ui.Event} {srv : Server}
    (hf : b.server.step f = some srv) (hstarted : ∀ s ∈ members, b.server.task s ≠ .idle)
    {x : Socket} {room : Bool} (hidle : b.server.task x = .idle)
    (hpush : srv.sockets = b.server.sockets.push x room) :
    Progress members { b with server := srv } := by
  have hcells := DynArray.cells_push b.server.sockets x room h.allocated
  apply h.of_unread hf hstarted
  · rw [hpush]
    exact h.allocated.trans_le (DynArray.allocated_push_le _ _ _)
  · rw [hpush]
    rcases hcells with hcells | hcells <;> rw [hcells]
    · exact h.inside
    · exact h.inside.trans (by simp)
  · intro hblock s hs
    have hsame : b.server.sockets.block = b.block := by
      rcases DynArray.block_push b.server.sockets x room with hb | hb
      · rw [← hb, ← hpush, hblock]
      · have := h.allocated
        rw [← hblock, hpush, hb] at this
        exact absurd this (lt_irrefl _)
    have hnot := h.beyond hsame s hs
    have hsx : s ≠ x := fun hsx => hstarted s hs (hsx ▸ hidle)
    rw [hpush, DynArray.view_push]
    intro hmem
    rcases List.mem_append.mp (List.drop_append .. ▸ hmem) with hmem | hmem
    · exact hnot hmem
    · exact hsx (List.mem_singleton.mp (List.mem_of_mem_drop hmem))
  · intro s _ _
    rw [hpush, unread]
    rcases hcells with hcells | hcells <;> rw [hcells]
    rw [List.take_append_of_le_length h.inside]

/-- A removal that spares the loop leaves every other member unread as often as before. -/
theorem Progress.count_unread (h : Progress members b) {x : Socket} (hx : x ∈ b.server.sockets.view)
    (hspares : b.Spares (b.server.sockets.view.idxOf x)) {s : Socket} (hs : s ∈ members)
      (hsx : s ≠ x) :
    ((((removeFromArray b.server.sockets x).cells b.block).take b.length).drop b.index).count s =
      b.unread.count s := by
  have hk := idxOf_view_lt hx
  have hmoved := moved_removeFromArrayIdx hk
  rw [← removeFromArray_of_mem hx] at hmoved
  rw [unread]
  by_cases hb : b.server.sockets.block = b.block
  · have hshift := hmoved.cell
    rw [hb] at hshift
    rcases hspares with hne | hend | hstill | ⟨hle, hgrown⟩
    · exact absurd hb hne
    · rw [List.drop_eq_nil_of_le, List.drop_eq_nil_of_le] <;> rw [List.length_take] <;> omega
    · rw [hshift.unread_eq (by omega)]
    -- the cell that is freed is filled from behind the slice, by a socket that came later
    · have hget : (b.server.sockets.cells b.block)[b.server.sockets.view.idxOf x]? = some x := by
        rw [← hb, ← DynArray.getElem?_view _ hk, List.getElem?_idxOf hx]
      refine hshift.count_unread hget hsx hle (by omega) fun hbehind => h.beyond hb s hs ?_
      have hn : b.server.sockets.view[b.length]? = some s := by
        rw [DynArray.getElem?_view _ hgrown, hb, hbehind]
      exact List.mem_of_getElem? (i := 0) (by rw [List.getElem?_drop, Nat.add_zero, hn])
  · rw [hmoved.other _ (Ne.symm hb)]

theorem Progress.remove (h : Progress members b) (hinv : b.server.Inv) {f : Ui.Event} {srv : Server}
    (hf : b.server.step f = some srv) (hstarted : ∀ s ∈ members, b.server.task s ≠ .idle)
    {x : Socket} (hcloses : (b.server.task x).closes)
    (hspares : b.Spares (b.server.sockets.view.idxOf x))
    (hremove : srv.sockets = removeFromArray b.server.sockets x) :
    Progress members { b with server := srv } := by
  have hx := hinv.mem_view hcloses
  have hk := idxOf_view_lt hx
  have hmoved := moved_removeFromArrayIdx hk
  rw [← removeFromArray_of_mem hx, ← hremove] at hmoved
  apply h.of_unread hf hstarted
  · exact h.allocated.trans_eq hmoved.allocated.symm
  · by_cases hb : b.block = b.server.sockets.block
    · rw [hb, hmoved.size, ← hb]
      exact h.inside
    · rw [hmoved.other _ hb]
      exact h.inside
  · intro hb s hs hdrop
    rw [hremove, removeFromArray_of_mem hx, view_removeFromArrayIdx hk] at hdrop
    exact h.beyond (hmoved.block.symm.trans hb) s hs (mem_drop_of_eraseIdx hdrop)
  · intro s hs hconn
    have hsx : s ≠ x := by
      rintro rfl
      rw [hinv.closing s hcloses] at hconn
      cases hconn
    rw [hremove]
    exact h.count_unread hx hspares hs hsx

theorem Inv.server_step (h : Inv members b) {f : Ui.Event} {srv : Server}
    (hf : b.server.step f = some srv) (hharmless : b.Harmless (.server f)) :
    Inv members { b with server := srv } := by
  refine ⟨Server.inv_step _ _ _ hf h.server, fun s hs => Server.started_step hf (h.started s hs),
    h.quiet, fun hrunning => ?_, fun hstopped s hs hconn => ?_⟩
  · have hprogress := h.progress hrunning
    rcases Server.sockets_step hf with hsame | ⟨x, room, hidle, hpush⟩ |
      ⟨x, a, rfl, hcloses, hremove⟩
    · apply hprogress.of_unread hf h.started <;> rw [hsame]
      · exact hprogress.allocated
      · exact hprogress.inside
      · exact hprogress.beyond
      · exact fun _ _ _ => rfl
    · exact hprogress.push hf h.started hidle hpush
    · refine hprogress.remove h.server hf h.started hcloses ?_ hremove
      by_cases hended : b.Ended
      · rcases hended with hstopped | ⟨-, hend⟩
        · rw [hrunning] at hstopped
          cases hstopped
        · exact .inr (.inl hend)
      · exact hharmless hended hcloses
  · exact h.delivered hstopped s hs (Server.connected_of_step hf (h.started s hs) hconn)

theorem Inv.stopped_eq_false (h : Inv members b) {p : Socket × Bool}
    (hpending : b.pending = some p) :
    b.stopped = false := by
  by_contra hstopped
  have hquiet := h.quiet (Bool.eq_true_of_not_eq_false hstopped)
  rw [hpending] at hquiet
  cases hquiet

theorem outstanding_eq_cons {s : Socket} {closed : Bool} (hpending : b.pending = some (s, closed)) :
    b.outstanding = s :: b.unread := by
  rw [outstanding, hpending]
  rfl

/-- Reading an element moves it from the unread to the pending ones. -/
theorem outstanding_call {s : Socket} {rest : List Socket} {closed : Bool}
    (hpending : b.pending = none) (hunread : b.unread = s :: rest) :
    outstanding { b with pending := some (s, closed), index := b.index + 1 } = b.outstanding := by
  have htail : unread { b with pending := some (s, closed), index := b.index + 1 } =
      b.unread.tail := by
    rw [unread, unread, List.tail_drop]
  rw [outstanding, outstanding, htail, hpending, hunread]
  rfl

theorem inv_step (b : Broadcast) (e : Event) (t : Broadcast) (h : b.step e = some t)
    (hharmless : b.Harmless e) (hb : Inv members b) : Inv members t := by
  obtain ⟨f, srv, rfl, hf, rfl⟩ | ⟨s, rest, rfl, hrunning, hpending, hunread, rfl⟩ |
    ⟨s, rfl, hpending, rfl⟩ | ⟨s, closed, rfl, hpending, hgone, rfl⟩ := step_cases h
  · exact hb.server_step hf hharmless
  · have hp := hb.progress hrunning
    refine ⟨hb.server, hb.started, fun hstopped => ?_,
      fun _ => ⟨hp.allocated, hp.inside, hp.beyond, ?_⟩, hb.delivered⟩
    · rw [show b.stopped = true from hstopped] at hrunning
      cases hrunning
    · rw [outstanding_call hpending hunread]
      exact hp.once
  · have hrunning := hb.stopped_eq_false hpending
    have hp := hb.progress hrunning
    refine ⟨hb.server, hb.started, fun _ => rfl, fun _ => ⟨hp.allocated, hp.inside, hp.beyond, ?_⟩,
      fun hstopped => ?_⟩
    · intro x hx hconn
      have honce := hp.once x hx hconn
      rw [outstanding_eq_cons hpending] at honce
      change (b.sent ++ [(s, receiveBos)]).count (x, receiveBos) + b.unread.count x = 1
      rw [List.count_append]
      by_cases hxs : s = x
      · subst hxs
        rw [List.count_cons_self] at honce
        rw [List.count_singleton_self]
        omega
      · have hother : [(s, receiveBos)].count (x, receiveBos) = 0 :=
          List.count_eq_zero.mpr (by simp [Ne.symm hxs])
        rw [List.count_cons_of_ne hxs] at honce
        rw [hother, Nat.add_zero]
        exact honce
    · rw [show b.stopped = true from hstopped] at hrunning
      cases hrunning
  · have hp := hb.progress (hb.stopped_eq_false hpending)
    refine ⟨hb.server, hb.started, fun _ => rfl, fun hrunning => (by cases hrunning),
      fun _ x hx hconn => ?_⟩
    have hxs : s ≠ x := by
      rintro rfl
      rw [show b.server.connected s = true from hconn] at hgone
      cases hgone
    have hunread : b.unread.count x = 0 := by
      rw [List.count_eq_zero]
      intro hmem
      rw [hharmless x hmem] at hconn
      cases hconn
    have honce := hp.once x hx hconn
    rwa [outstanding_eq_cons hpending, List.count_cons_of_ne hxs, hunread] at honce

theorem Inv.count_le_one (h : Inv members b) {s : Socket} (hs : s ∈ members)
    (hconn : b.server.connected s) : b.sent.count (s, receiveBos) ≤ 1 := by
  by_cases hstopped : b.stopped = true
  · exact (h.delivered hstopped s hs hconn).le
  · have honce := (h.progress (Bool.eq_false_iff.mpr hstopped)).once s hs hconn
    omega

/-- Once the loop has ended nothing is outstanding. -/
theorem Inv.count_eq_one (h : Inv members b) (hended : b.Ended) {s : Socket} (hs : s ∈ members)
    (hconn : b.server.connected s) : b.sent.count (s, receiveBos) = 1 := by
  by_cases hstopped : b.stopped = true
  · exact h.delivered hstopped s hs hconn
  · obtain ⟨hpending, hend⟩ := hended.resolve_left hstopped
    have honce := (h.progress (Bool.eq_false_iff.mpr hstopped)).once s hs hconn
    have hunread : b.unread = [] := by
      apply List.drop_eq_nil_of_le
      rw [List.length_take]
      omega
    rwa [outstanding, hpending, hunread] at honce

/-- From any reachable state of the server, a broadcast whose steps are all harmless sends
the message at most once to every socket of the list at its start that is still connected,
and exactly once when the loop has ended. -/
theorem broadcast_exactlyOnce (before : List Ui.Event) (srv : Server)
    (hbefore : Transition.run Server.step .start before = some srv)
    (events : List Event) (b : Broadcast) (hrun : Transition.run step (start srv) events = some b)
    (hharmless : Transition.Along step Harmless (start srv) events) :
    ∀ s ∈ srv.sockets.view, b.server.connected s → b.sent.count (s, receiveBos) ≤ 1 ∧
      (b.Ended → b.sent.count (s, receiveBos) = 1) := by
  have hsrv : srv.Inv :=
    Transition.run_always Server.Inv Server.inv_step before hbefore Server.inv_start
  have hinv : Inv srv.sockets.view b :=
    Transition.run_invariant (Inv srv.sockets.view) inv_step events hrun hharmless (inv_start hsrv)
  intro s hs hconn
  exact ⟨hinv.count_le_one hs hconn, fun hended => hinv.count_eq_one hended hs hconn⟩

/-- The last of three clients leaves while the first is served, which spares the loop. Its cell
is still read, and the exception of its `send` comes when no other is left to read. -/
theorem broadcast_exactlyOnce_two : ∃ srv b,
    Transition.run Server.step .start
      [.accept 0 false, .accept 1 false, .accept 2 false, .answer 2 (.available true),
        .answer 2 (.text (some "owl".toList)), .answer 2 .done] = some srv ∧
      Transition.run step (start srv)
        [.call, .server (.answer 2 (.available true)),
          .server (.answer 2 (.text (some "/close".toList))), .server (.answer 2 .done), .sent,
          .call, .sent, .call, .throws] = some b ∧
      b.server.sockets.view = [0, 1] ∧ b.stopped ∧
      b.sent.count (0, receiveBos) = 1 ∧ b.sent.count (1, receiveBos) = 1 := by
  refine ⟨_, _, rfl, rfl, by decide, by decide, ?_⟩
  have hone := broadcast_exactlyOnce
    [.accept 0 false, .accept 1 false, .accept 2 false, .answer 2 (.available true),
      .answer 2 (.text (some "owl".toList)), .answer 2 .done] _ rfl
    [.call, .server (.answer 2 (.available true)),
      .server (.answer 2 (.text (some "/close".toList))), .server (.answer 2 .done), .sent,
      .call, .sent, .call, .throws] _ rfl (by decide)
  exact ⟨(hone 0 (by decide) (by decide)).2 (by decide),
    (hone 1 (by decide) (by decide)).2 (by decide)⟩

/-- The first of four clients leaves while the second is served: the third is skipped, and
the fourth is served twice. -/
theorem broadcast_skips_and_repeats : ∃ srv b,
    Transition.run Server.step .start
      [.accept 0 false, .accept 1 false, .accept 2 false, .accept 3 false,
        .answer 0 (.available true), .answer 0 (.text (some "owl".toList)), .answer 0 .done] =
          some srv ∧
      Transition.run step (start srv)
        [.call, .sent, .call, .server (.answer 0 (.available true)),
          .server (.answer 0 (.text (some "/close".toList))), .server (.answer 0 .done), .sent,
          .call, .sent, .call, .sent] = some b ∧
      b.Ended ∧ 2 ∈ srv.sockets.view ∧ b.server.connected 2 ∧ b.sent.count (2, receiveBos) = 0 ∧
      3 ∈ srv.sockets.view ∧ b.server.connected 3 ∧ b.sent.count (3, receiveBos) = 2 := by
  refine ⟨_, _, rfl, rfl, ?_⟩
  decide

end Broadcast

end Owlchain.Ui
