import Mathlib.Data.List.Basic

/-!
# Incremental parsers over a stream that arrives in pieces

A receiver that owns a buffer runs the same loop whatever the wire format is: parse what is in the
buffer; if the parser wants more, append the next piece that arrives and parse again; otherwise cut
the parsed bytes off the front of the buffer.  Nothing in the loop mentions where the pieces were cut,
and this file says when the *results* do not depend on it either.

The condition is `Stable`: a verdict other than "more" is a verdict about the stream and not about the
piece of it that happens to be in the buffer.  For a stable parser, `receiveAll` over any cutting of a
stream is `parseAll` over the stream itself (`receiveAll_eq_parseAll`).
-/

namespace Incremental

universe u

/-- What a parser says about the bytes it has been given. -/
inductive Verdict (ε α : Type u) where
  /-- The bytes are a proper beginning of something; more are needed. -/
  | more
  /-- No continuation of the bytes can be parsed. -/
  | fail (e : ε)
  /-- The first `consumed` bytes are the encoding of `a`. -/
  | done (a : α) (consumed : Nat)
deriving DecidableEq

variable {β ε α τ : Type u}

/-- A parser that is called with everything received so far. -/
abbrev Parser (β ε α : Type u) := List β → Verdict ε α

/-- The verdicts of `p` are about the stream: what has been accepted or rejected stays so when more
bytes arrive, and accepting consumes something that is there. -/
structure Stable (p : Parser β ε α) : Prop where
  /-- Accepting is not undone by further bytes. -/
  done_append : ∀ {b a n}, p b = .done a n → ∀ t, p (b ++ t) = .done a n
  /-- Rejecting is not undone by further bytes. -/
  fail_append : ∀ {b e}, p b = .fail e → ∀ t, p (b ++ t) = .fail e
  /-- No more is consumed than was given. -/
  consumed_le : ∀ {b a n}, p b = .done a n → n ≤ b.length
  /-- Something is consumed. -/
  consumed_pos : ∀ {b a n}, p b = .done a n → 0 < n

/-- How a receiver fails: on the bytes it got, or because no more arrive. -/
inductive Failure (ε τ : Type u) where
  /-- The parser rejected the buffer. -/
  | malformed (e : ε)
  /-- The transport failed while more bytes were needed. -/
  | transport (t : τ)
deriving DecidableEq

/-- The outcome of one call: what it returned, the buffer it leaves, and the pieces not yet read. -/
structure Received (β ε α τ : Type u) where
  /-- The value returned. -/
  result : Except (Failure ε τ) α
  /-- The buffer afterwards. -/
  buffer : List β
  /-- The pieces still to arrive. -/
  pending : List (List β)

/-- One call of the receive loop.  `pending` are the pieces the transport will deliver, after which it
fails with `lost`. -/
def receive (p : Parser β ε α) (lost : τ) : List β → List (List β) → Received β ε α τ
  | buffer, [] =>
    match p buffer with
    | .done a n => ⟨.ok a, buffer.drop n, []⟩
    | .fail e => ⟨.error (.malformed e), buffer, []⟩
    | .more => ⟨.error (.transport lost), buffer, []⟩
  | buffer, piece :: rest =>
    match p buffer with
    | .done a n => ⟨.ok a, buffer.drop n, piece :: rest⟩
    | .fail e => ⟨.error (.malformed e), buffer, piece :: rest⟩
    | .more => receive p lost (buffer ++ piece) rest

/-- The results of the first `k` calls, up to and including the first failure. -/
def receiveAll (p : Parser β ε α) (lost : τ) :
    Nat → List β → List (List β) → List (Except (Failure ε τ) α)
  | 0, _, _ => []
  | k + 1, buffer, pending =>
    let r := receive p lost buffer pending
    match r.result with
    | .ok a => .ok a :: receiveAll p lost k r.buffer r.pending
    | .error e => [.error e]

/-- The results of iterating the parser over a whole stream, dropping what it consumed each time. -/
def parseAll (p : Parser β ε α) (lost : τ) :
    Nat → List β → List (Except (Failure ε τ) α)
  | 0, _ => []
  | k + 1, s =>
    match p s with
    | .done a n => .ok a :: parseAll p lost k (s.drop n)
    | .fail e => [.error (.malformed e)]
    | .more => [.error (.transport lost)]

/-! ## One call -/

section

variable {p : Parser β ε α} {lost : τ} {buffer : List β} {pending : List (List β)}

theorem receive_of_done {a : α} {n : Nat} (h : p buffer = .done a n) :
    receive p lost buffer pending = ⟨.ok a, buffer.drop n, pending⟩ := by
  cases pending <;> rw [receive, h]

theorem receive_of_fail {e : ε} (h : p buffer = .fail e) :
    receive p lost buffer pending = ⟨.error (.malformed e), buffer, pending⟩ := by
  cases pending <;> rw [receive, h]

theorem receive_of_more_nil (h : p buffer = .more) :
    receive p lost buffer [] = ⟨.error (.transport lost), buffer, []⟩ := by
  rw [receive, h]

theorem receive_of_more_cons {piece : List β} (h : p buffer = .more) :
    receive p lost buffer (piece :: pending) = receive p lost (buffer ++ piece) pending := by
  rw [receive, h]

/-- What one call does is decided by the verdict on the *whole* unread stream: an accepting verdict is
returned and exactly its bytes disappear from the stream, a rejection is reported, and a parser that
would still want more at the end of the stream runs into the transport failure. -/
theorem receive_spec (hp : Stable p) (lost : τ) (buffer : List β) (pending : List (List β)) :
    let s := buffer ++ pending.flatten
    let r := receive p lost buffer pending
    match p s with
    | .done a n => r.result = .ok a ∧ r.buffer ++ r.pending.flatten = s.drop n
    | .fail e => r.result = .error (.malformed e)
    | .more => r.result = .error (.transport lost) := by
  induction pending generalizing buffer with
  | nil =>
      simp only [List.flatten_nil, List.append_nil]
      cases h : p buffer with
      | more => simp [receive_of_more_nil h]
      | fail e => simp [receive_of_fail h]
      | done a n => simp [receive_of_done h]
  | cons piece rest ih =>
      cases h : p buffer with
      | more =>
          have := ih (buffer ++ piece)
          rw [receive_of_more_cons h]
          simpa [List.append_assoc] using this
      | fail e =>
          simp only [receive_of_fail h, hp.fail_append h]
      | done a n =>
          simp only [receive_of_done h, hp.done_append h, true_and]
          rw [List.drop_append_of_le_length (hp.consumed_le h)]

end

/-! ## Runs of calls -/

/-- **The cutting does not matter.**  Over any cutting of a stream, the calls of the receive loop
return what iterating the parser over the stream returns, in the same order and with the same end. -/
theorem receiveAll_eq_parseAll {p : Parser β ε α} (hp : Stable p) (lost : τ) (k : Nat)
    (buffer : List β) (pending : List (List β)) :
    receiveAll p lost k buffer pending = parseAll p lost k (buffer ++ pending.flatten) := by
  induction k generalizing buffer pending with
  | zero => rfl
  | succ k ih =>
      have spec := receive_spec hp lost buffer pending
      simp only [receiveAll, parseAll]
      cases h : p (buffer ++ pending.flatten) with
      | more => simp only [h] at spec; simp [spec]
      | fail e => simp only [h] at spec; simp [spec]
      | done a n =>
          simp only [h] at spec
          obtain ⟨hok, hrest⟩ := spec
          simp [hok, ih, hrest]

/-- The run ends: if accepting consumes at least `c` bytes, then after more calls than there are `c` bytes the last
result is a failure. -/
theorem parseAll_ends {p : Parser β ε α} (hp : Stable p) {c : Nat} (hc : ∀ {b a n}, p b = .done a n → c ≤ n) (lost : τ)
    (k : Nat) (s : List β) (hk : s.length < c * k) :
    ∃ (as : List α) (e : Failure ε τ),
      parseAll p lost k s = as.map Except.ok ++ [Except.error e] := by
  induction k generalizing s with
  | zero => exact absurd hk (Nat.not_lt_zero _)
  | succ k ih =>
      simp only [parseAll]
      cases h : p s with
      | more => exact ⟨[], _, rfl⟩
      | fail e => exact ⟨[], _, rfl⟩
      | done a n =>
          have hlen : (s.drop n).length < c * k := by
            have hle := hp.consumed_le h
            have hmin := hc h
            rw [Nat.mul_succ] at hk
            rw [List.length_drop]
            omega
          obtain ⟨as, e, has⟩ := ih (s.drop n) hlen
          exact ⟨a :: as, e, by simp [has]⟩

/-! ## The size of the buffer

The buffer grows only while the parser wants more, so a bound on what it may want more of is a bound on the buffer. -/

/-- What one call does: it reads some of the pieces into its buffer `b`, and cuts off what has been parsed, if anything
has.  Wherever the parser wants more there are at most `bound` bytes, so with pieces of at most `size` bytes the buffer
does not grow beyond `bound + size`. -/
theorem receive_reads {p : Parser β ε α} {bound size : Nat} (lost : τ) {buffer : List β} {pending : List (List β)}
    (hmore : ∀ b, b <+: buffer ++ pending.flatten → p b = .more → b.length ≤ bound)
    (hpieces : ∀ piece ∈ pending, piece.length ≤ size) :
    ∃ k b, b = buffer ++ (pending.take k).flatten ∧ b.length ≤ max buffer.length (bound + size) ∧
      ((∃ a n, p b = .done a n ∧ receive p lost buffer pending = ⟨.ok a, b.drop n, pending.drop k⟩) ∨
        ∃ e, receive p lost buffer pending = ⟨.error e, b, pending.drop k⟩) := by
  induction pending generalizing buffer with
  | nil =>
      refine ⟨0, buffer, (List.append_nil buffer).symm, Nat.le_max_left _ _, ?_⟩
      cases h : p buffer with
      | more => exact .inr ⟨_, receive_of_more_nil h⟩
      | fail e => exact .inr ⟨_, receive_of_fail h⟩
      | done a n => exact .inl ⟨a, n, rfl, receive_of_done h⟩
  | cons piece pending ih =>
      cases h : p buffer with
      | more =>
          have hbuffer := hmore buffer (List.prefix_append _ _) h
          have hpiece := hpieces piece List.mem_cons_self
          have hstream : buffer ++ (piece :: pending).flatten = buffer ++ piece ++ pending.flatten := by
            rw [List.flatten_cons, List.append_assoc]
          rw [hstream] at hmore
          obtain ⟨k, b, hb, hlength, hcall⟩ := ih hmore fun piece hmem ↦ hpieces piece (List.mem_cons_of_mem _ hmem)
          refine ⟨k + 1, b, ?_, ?_, ?_⟩
          · rw [hb, List.take_succ_cons, List.flatten_cons, List.append_assoc]
          · rw [List.length_append] at hlength
            omega
          · rwa [receive_of_more_cons h]
      | fail e => exact ⟨0, buffer, (List.append_nil buffer).symm, Nat.le_max_left _ _, .inr ⟨_, receive_of_fail h⟩⟩
      | done a n =>
          exact ⟨0, buffer, (List.append_nil buffer).symm, Nat.le_max_left _ _, .inl ⟨a, n, h, receive_of_done h⟩⟩

/-- The buffers a receiver can have between its calls, if no piece it reads is larger than `size`. -/
inductive Buffered (p : Parser β ε α) (τ : Type u) (size : Nat) : List β → Prop
  | start : Buffered p τ size []
  | call {buffer : List β} (h : Buffered p τ size buffer) (lost : τ) (pending : List (List β))
      (hpieces : ∀ piece ∈ pending, piece.length ≤ size) : Buffered p τ size (receive p lost buffer pending).buffer

/-- The bound holds over whole runs. -/
theorem Buffered.length_le {p : Parser β ε α} {bound size : Nat} (hmore : ∀ b, p b = .more → b.length ≤ bound)
    {buffer : List β} (h : Buffered p τ size buffer) : buffer.length ≤ bound + size := by
  induction h with
  | start => exact Nat.zero_le _
  | call _ lost pending hpieces ih =>
      obtain ⟨k, b, -, hlength, hcall⟩ := receive_reads lost (fun b _ ↦ hmore b) hpieces
      rw [Nat.max_eq_right ih] at hlength
      obtain ⟨a, n, -, hcall⟩ | ⟨e, hcall⟩ := hcall
      · rw [hcall, List.length_drop]
        exact Nat.le_trans (Nat.sub_le _ _) hlength
      · rw [hcall]
        exact hlength

/-! ## Building stable parsers

A parser is usually written as a sequence of reads, each at an offset that the earlier ones computed.
`Settled` is stability for one such read, where `final` picks out the errors that are verdicts about
the stream (the others only say that bytes are missing); it is closed under sequencing. -/

/-- What `f` returns, and any final error it raises, is not changed by further bytes. -/
structure Settled (final : ε → Prop) (f : List β → Except ε α) : Prop where
  /-- A value once read stays read. -/
  ok_append : ∀ {b a}, f b = .ok a → ∀ t, f (b ++ t) = .ok a
  /-- A final error once raised stays raised. -/
  error_append : ∀ {b e}, f b = .error e → final e → ∀ t, f (b ++ t) = .error e

namespace Settled

variable {final : ε → Prop} {γ : Type u}

/-- A step that does not look at the bytes. -/
theorem const (x : Except ε α) : Settled final (fun _ : List β ↦ x) := ⟨fun h _ ↦ h, fun h _ _ ↦ h⟩

/-- Sequencing: the second read may depend on the result of the first. -/
theorem bind {f : List β → Except ε α} {g : α → List β → Except ε γ}
    (hf : Settled final f) (hg : ∀ a, Settled final (g a)) :
    Settled final (fun b ↦ f b >>= fun a ↦ g a b) where
  ok_append {b c} h t := by
    cases hb : f b with
    | error e => rw [hb] at h; cases h
    | ok a =>
        rw [hb] at h
        rw [hf.ok_append hb t]
        exact (hg a).ok_append h t
  error_append {b e} h he t := by
    cases hb : f b with
    | error e' =>
        rw [hb] at h
        cases h
        rw [hf.error_append hb he t]
        rfl
    | ok a =>
        rw [hb] at h
        rw [hf.ok_append hb t]
        exact (hg a).error_append h he t

/-- A read that waits for its bytes: as long as they are `missing` it raises an error that is not
final, and once they are there further bytes change neither that nor what is read. -/
theorem guarded {missing : List β → Prop} [DecidablePred missing] {e : ε} {g : List β → Except ε α}
    (he : ¬ final e) (hg : ∀ b t, ¬ missing b → ¬ missing (b ++ t) ∧ g (b ++ t) = g b) :
    Settled final (fun b ↦ if missing b then .error e else g b) := by
  constructor
  · intro b a h t
    by_cases hb : missing b
    · rw [if_pos hb] at h
      cases h
    · rw [if_neg hb] at h
      rw [if_neg (hg b t hb).1, (hg b t hb).2, h]
  · intro b e' h hfin t
    by_cases hb : missing b
    · rw [if_pos hb] at h
      cases h
      exact absurd hfin he
    · rw [if_neg hb] at h
      rw [if_neg (hg b t hb).1, (hg b t hb).2, h]

end Settled

/-- A slice that lies within the bytes given is not changed by further bytes. -/
theorem slice_append {b : List β} {pos n : Nat} (h : n ≤ b.length - pos) (t : List β) :
    ((b ++ t).drop pos).take n = (b.drop pos).take n := by
  cases n with
  | zero => simp
  | succ n =>
      rw [List.drop_append_of_le_length (by omega), List.take_append_of_le_length]
      rw [List.length_drop]
      exact h

end Incremental
