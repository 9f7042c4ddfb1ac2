import KalshiClient.Http.Client

/-!
# What is sent, and on which connection

A request that is sent twice may be executed twice, and one that is sent on a connection with something left over
from before is answered by the leftovers.  `SentOnce` is what a call of `request` may do to the socket on account of
the first, and `Connection.Step` on account of the second: the life of a connection, one operation on the socket at a
time.  The client keeps to both, whatever the outcome of the operations (`HttpClient.request_sentOnce`,
`HttpClient.request_run`).
-/

namespace KalshiClient.Http

open Bytes

namespace Event

/-- Whether something is sent, successfully or not. -/
def isSend : Event → Bool
  | .send _ _ => true
  | _ => false

/-- Whether something is sent and reaches the server. -/
def isDelivery : Event → Bool
  | .send _ ok => ok
  | _ => false

/-- Whether a connection is opened, successfully or not. -/
def isOpen : Event → Bool
  | .open _ => true
  | _ => false

/-- Whether the response is read. -/
def isRead : Event → Bool
  | .read _ _ => true
  | _ => false

/-- Whether the operation failed. -/
def failed : Event → Bool
  | .open ok | .send _ ok | .read _ ok => !ok

end Event

/-! ## One call -/

/-- What a call may do with the bytes of its request. -/
structure SentOnce (bytes : Bytes) (reused : Bool) (events : List Event) : Prop where
  /-- Nothing else is sent. -/
  own : ∀ sent ok, Event.send sent ok ∈ events → sent = bytes
  /-- At most one attempt succeeds. -/
  once : events.countP Event.isDelivery ≤ 1
  /-- There is a second attempt only after a failure on a connection that was used before, and no third. -/
  retry : 1 < events.countP Event.isSend → reused = true ∧
    ∃ ok rest, events = .send bytes false :: .open true :: .send bytes ok :: rest ∧ rest.countP Event.isSend = 0
  /-- Nothing is sent once the response is read. -/
  silent : events.Pairwise fun e e' ↦ e.isRead = true → e'.isSend = false

/-- A call that does not send. -/
theorem SentOnce.of_countP_eq_zero {bytes : Bytes} {reused : Bool} {events : List Event}
    (h : events.countP Event.isSend = 0) : SentOnce bytes reused events := by
  have hsend : ∀ e ∈ events, ¬e.isSend = true := List.countP_eq_zero.mp h
  refine ⟨fun sent ok hmem ↦ absurd rfl (hsend _ hmem), ?_, by omega, ?_⟩
  · refine (List.countP_mono_left fun e _ he ↦ ?_).trans (h.trans_le (Nat.zero_le 1))
    cases e with
    | send sent ok => rfl
    | «open» ok | read buffer ok => cases he
  · exact List.pairwise_of_forall_mem_list fun e _ e' he' _ ↦ by simpa using hsend e' he'

namespace Attempt

variable {bytes : Bytes} {reused ok : Bool} {events : List Event}

theorem sentOnce (h : Attempt bytes reused events ok) : SentOnce bytes reused events := by
  cases h <;>
    exact ⟨by simp, by simp [List.countP_cons, Event.isDelivery], by simp [List.countP_cons, Event.isSend],
      by simp [Event.isRead]⟩

/-- Reading is the last a call does. -/
theorem sentOnce_read (h : Attempt bytes reused events ok) (buffer : Bytes) (received : Bool) :
    SentOnce bytes reused (events ++ [.read buffer received]) := by
  have hsent := h.sentOnce
  refine ⟨fun sent ok hmem ↦ ?_, ?_, ?_, ?_⟩
  · rw [List.mem_append, List.mem_singleton] at hmem
    rcases hmem with hmem | hread
    · exact hsent.own sent ok hmem
    · cases hread
  · rw [List.countP_append]
    exact hsent.once
  · rw [List.countP_append]
    intro htwo
    obtain ⟨hreused, ok, rest, hevents, hrest⟩ := hsent.retry htwo
    refine ⟨hreused, ok, rest ++ [.read buffer received], by rw [hevents]; rfl, ?_⟩
    rw [List.countP_append, hrest]
    rfl
  · refine List.pairwise_append.mpr ⟨hsent.silent, List.pairwise_singleton _ _, fun e _ e' he' _ ↦ ?_⟩
    rw [List.mem_singleton.mp he']
    rfl

end Attempt

/-! ## The life of a connection -/

namespace Connection

/-- What an operation on the socket does to the connection and the buffer; without a connection there is nothing to do
but to open one. -/
inductive Step : Option Bytes → Event → Option Bytes → Prop
  | opened {s : Option Bytes} : Step s (.open true) (some [])
  | notOpened {s : Option Bytes} : Step s (.open false) none
  | sent {buffer bytes : Bytes} : Step (some buffer) (.send bytes true) (some buffer)
  | notSent {buffer bytes : Bytes} : Step (some buffer) (.send bytes false) none
  | read {buffer : Bytes} {kept : Option Bytes} : Step (some buffer) (.read buffer true) kept
  | notRead {buffer : Bytes} : Step (some buffer) (.read buffer false) none

/-- A sequence of operations. -/
inductive Run : Option Bytes → List Event → Option Bytes → Prop
  | nil {s : Option Bytes} : Run s [] s
  | cons {s s₁ s₂ : Option Bytes} {e : Event} {events : List Event} (h : Step s e s₁) (hrun : Run s₁ events s₂) :
      Run s (e :: events) s₂

variable {s s' s'' : Option Bytes} {e : Event} {events events' : List Event}

theorem Run.append (h : Run s events s') (h' : Run s' events' s'') : Run s (events ++ events') s'' := by
  induction h with
  | nil => exact h'
  | cons hstep _ ih => exact .cons hstep (ih h')

theorem Run.split (h : Run s (events ++ events') s'') : ∃ s', Run s events s' ∧ Run s' events' s'' := by
  induction events generalizing s with
  | nil => exact ⟨s, .nil, h⟩
  | cons e events ih =>
      cases h with
      | cons hstep hrun =>
          obtain ⟨s', hleft, hright⟩ := ih hrun
          exact ⟨s', .cons hstep hleft, hright⟩

/-- A failure costs the connection. -/
theorem Step.eq_none (h : Step s e s') (hfailed : e.failed = true) : s' = none := by
  cases h with
  | opened | sent | read => cases hfailed
  | notOpened | notSent | notRead => rfl

theorem Step.isOpen (h : Step none e s') : e.isOpen = true := by
  cases h with
  | opened | notOpened => rfl

/-- **A failure at the end** leaves no connection. -/
theorem Run.eq_none (h : Run s (events ++ [e]) s') (hfailed : e.failed = true) : s' = none := by
  obtain ⟨s₁, -, hlast⟩ := h.split
  cases hlast with
  | cons hstep hrun =>
      cases hrun with
      | nil => exact hstep.eq_none hfailed

/-- **After a failure** the next operation opens a connection. -/
theorem Run.isChain (h : Run s events s') :
    events.IsChain fun e e' ↦ e.failed = true → e'.isOpen = true := by
  induction h with
  | nil => exact .nil
  | @cons s s₁ s₂ e events hstep hrun ih =>
      cases hrun with
      | nil => exact .singleton _
      | cons hnext hrest =>
          refine .cons_cons (fun hfailed ↦ ?_) ih
          rw [hstep.eq_none hfailed] at hnext
          exact hnext.isOpen

/-- Until something is read, the buffer of a new connection stays empty. -/
theorem Run.eq_nil (h : Run s events s') (hs : ∀ buffer ∈ s, buffer = [])
    (hread : ∀ e ∈ events, e.isRead = false) : ∀ buffer ∈ s', buffer = [] := by
  induction h with
  | nil => exact hs
  | cons hstep _ ih =>
      refine ih ?_ fun e he ↦ hread e (List.mem_cons_of_mem _ he)
      have hnot := hread _ List.mem_cons_self
      cases hstep with
      | opened =>
          rintro buffer ⟨⟩
          rfl
      | notOpened | notSent =>
          rintro buffer ⟨⟩
      | sent => exact hs
      | read | notRead => cases hnot

/-- **The first response read on a connection** is read into an empty buffer. -/
theorem Run.buffer_eq_nil {mid after : List Event} {buffer : Bytes} {ok : Bool}
    (h : Run s (events ++ .open true :: mid ++ .read buffer ok :: after) s')
    (hmid : ∀ e ∈ mid, e.isRead = false) : buffer = [] := by
  obtain ⟨s₁, hopen, hread⟩ := h.split
  obtain ⟨s₂, -, hopen⟩ := hopen.split
  cases hopen with
  | cons hstep hrun =>
      cases hstep
      have hempty := hrun.eq_nil (by rintro buffer ⟨⟩; rfl) hmid
      cases hread with
      | cons hstep _ =>
          cases hstep with
          | read | notRead => exact hempty buffer rfl

end Connection

/-! ## The client -/

namespace HttpClient

variable (c : HttpClient)

/-- The connection and its buffer. -/
def connection : Option Bytes := if c.connected then some c.buffer else none

theorem connection_of_reused {io : Io} (h : c.reused io = true) : c.connection = some c.buffer := by
  rw [connection, (Bool.and_eq_true_iff.mp h).1]
  rfl

theorem connection_of_not_connected {c : HttpClient} (h : c.connected = false) : c.connection = none := by
  rw [connection, h]
  rfl

theorem connected_of_connection {c : HttpClient} (h : c.connection = none) : c.connected = false := by
  rw [connection] at h
  split_ifs at h with hconn
  exact Bool.not_eq_true _ ▸ hconn

/-- A call of `request` does to its bytes what it may. -/
theorem request_sentOnce (method path body : Bytes) (io : Io) :
    ∃ auth, SentOnce (c.requestBytes method path body auth) (c.reused io) (c.request method path body io).events := by
  rcases c.request_cases method path body io with
    ⟨e, -, hcall⟩ | ⟨auth, ⟨c', e, events, hattempt, -, hcall⟩ | ⟨c', events, hattempt, -, hcall⟩⟩
  · rw [hcall]
    exact ⟨[], .of_countP_eq_zero rfl⟩
  · rw [hcall]
    exact ⟨auth, hattempt.sentOnce⟩
  · rw [hcall]
    exact ⟨auth, hattempt.sentOnce_read _ _⟩

/-- Reading ends with the connection kept, or without it. -/
theorem finish_run {c' : HttpClient} {events : List Event} (io : Io)
    (h : Connection.Run c.connection events (some c'.buffer)) :
    Connection.Run c.connection (c'.finish events io).events (c'.finish events io).client.connection := by
  refine h.append (.cons ?_ .nil)
  rw [finish, connection]
  cases (readResponse io.lost c'.buffer io.pieces).result with
  | error e => exact .notRead
  | ok response => exact .read

/-- A call of `request` runs the connection as it may. -/
theorem request_run (method path body : Bytes) (io : Io) :
    Connection.Run c.connection (c.request method path body io).events
      (c.request method path body io).client.connection := by
  rcases c.request_cases method path body io with
    ⟨e, -, hcall⟩ | ⟨auth, ⟨c', e, events, hattempt, hconn, hcall⟩ | ⟨c', events, hattempt, hconn, hcall⟩⟩
  · rw [hcall]
    exact .nil
  · rw [hcall]
    change Connection.Run c.connection events c'.connection
    rw [connection_of_not_connected hconn]
    generalize hreused : c.reused io = reused at hattempt
    cases hattempt with
    | notOpened => exact .cons .notOpened .nil
    | notSent => exact .cons .opened (.cons .notSent .nil)
    | retryNotOpened =>
        rw [c.connection_of_reused hreused]
        exact .cons .notSent (.cons .notOpened .nil)
    | retryNotSent =>
        rw [c.connection_of_reused hreused]
        exact .cons .notSent (.cons .opened (.cons .notSent .nil))
  · rw [hcall]
    refine c.finish_run io ?_
    generalize hreused : c.reused io = reused at hattempt
    rcases hconn with ⟨rfl, hevents⟩ | ⟨hbuffer, hopen⟩
    · rw [hevents] at hattempt ⊢
      cases hattempt with
      | again =>
          rw [c'.connection_of_reused hreused]
          exact .cons .sent .nil
    · rw [hbuffer]
      cases hattempt with
      | again => cases List.mem_singleton.mp hopen
      | first => exact .cons .opened (.cons .sent .nil)
      | retry =>
          rw [c.connection_of_reused hreused]
          exact .cons .notSent (.cons .opened (.cons .sent .nil))

/-- So does a call of `connect`. -/
theorem connect_run (io : Io) : Connection.Run c.connection (c.connect io).2.2 (c.connect io).1.connection := by
  rw [connect]
  split
  · exact .nil
  · cases io.opened with
    | error e => exact .cons .notOpened .nil
    | ok now => exact .cons .opened .nil

end HttpClient

end KalshiClient.Http
