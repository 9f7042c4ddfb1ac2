import KalshiClient.Trading.Exposure

/-!
# Lost order-book messages

The server numbers the messages of a subscription; a message may get lost or arrive in a form the bot cannot decode.
What the book should be after a message is the replay of everything the server has sent up to it: the latest
snapshot, and every delta since.

A delta is applied only if it continues the numbering, so a lost message is noticed at the next delta.  A message that
is not about the book moves the number without that check, and hides what was lost before it
(`book_out_of_sync`).  As long as those messages continue the numbering as well, every book the strategy is called
on is the replay (`book_in_sync`).
-/

namespace KalshiClient.Trading

open Bytes Protocol WebSocket

/-! ## What the book should be -/

/-- The effect of a message on the book, which is not there before the first snapshot. -/
def replayStep (book : Option MarketState) (m : Message) : Option MarketState :=
  match m.msg with
  | .snapshot snapshot => some (({} : MarketState).applySnapshot snapshot).1
  | .delta delta => book.map fun book ↦ (book.applyDelta delta).1
  | _ => book

/-- The latest snapshot with all deltas since. -/
def replay (ms : List Message) : Option MarketState := ms.foldl replayStep none

theorem replay_append (ms : List Message) (m : Message) : replay (ms ++ [m]) = replayStep (replay ms) m := by
  rw [replay, List.foldl_append]
  rfl

/-- Only book messages have an effect. -/
theorem replayStep_other {m : Message} (h : isBookMessage m = false) (book : Option MarketState) :
    replayStep book m = book := by
  rw [isBookMessage] at h
  rw [replayStep]
  cases hm : m.msg with
  | snapshot snapshot | delta delta =>
      rw [hm] at h
      cases h
  | fill fill | none => rfl

/-- The messages of one subscription, numbered consecutively; no number is zero. -/
structure Numbered (sid : UInt32) (server : List Message) : Prop where
  sid_eq : ∀ m ∈ server, m.sid = sid
  seq_eq : ∃ first, 0 < first ∧ server.map (fun m ↦ m.seq.toNat) = List.range' first server.length

namespace Numbered

variable {sid : UInt32} {server : List Message}

theorem seq_ne_zero (h : Numbered sid server) {m : Message} (hm : m ∈ server) : m.seq ≠ 0 := by
  obtain ⟨first, hpos, hseq⟩ := h.seq_eq
  have hmem : m.seq.toNat ∈ server.map fun m ↦ m.seq.toNat := List.mem_map_of_mem hm
  rw [hseq, List.mem_range'_1] at hmem
  intro hzero
  rw [hzero] at hmem
  have : (0 : UInt32).toNat = 0 := rfl
  omega

/-- The numbers of two messages tell how many there are between them. -/
theorem seq_succ (h : Numbered sid server) {pre mid post : List Message} {m m' : Message}
    (hserver : server = pre ++ m :: mid ++ m' :: post) : m'.seq.toNat = m.seq.toNat + mid.length + 1 := by
  obtain ⟨first, -, hseq⟩ := h.seq_eq
  have hget (i : Nat) (hi : i < server.length) : (server[i]).seq.toNat = first + i := by
    have hi' : i < (server.map fun m ↦ m.seq.toNat).length := by rwa [List.length_map]
    have := List.getElem_of_eq hseq hi'
    rwa [List.getElem_map, List.getElem_range', Nat.one_mul] at this
  subst hserver
  have hm := hget pre.length (by simp)
  have hm' := hget (pre.length + (mid.length + 1)) (by simp)
  simp at hm hm'
  omega

end Numbered

/-- A message of another subscription, or without a number; none of these is about the book. -/
def IsOther (sid : UInt32) (m : Message) : Prop := isBookMessage m = false ∧ (m.sid ≠ sid ∨ m.seq = 0)

/-- What arrives in a frame: the next message of the server, or something else. -/
inductive Arrives (sid : UInt32) (frame : Except Bytes WebSocketFrame) : List Message → List Message → Prop
  | next {m : Message} {rest : List Message} (h : received frame = some m) : Arrives sid frame (m :: rest) rest
  | other {rest : List Message} (h : ∀ m, received frame = some m → IsOther sid m) :
      Arrives sid frame rest rest

/-- A condition on a frame, in the state it arrives in. -/
abbrev ArrivalCondition (E : EmaOps) := TradingBot E → Except Bytes WebSocketFrame → Prop

/-- A session in which all frames meet a condition, with what the server has still to send.  Any message of the
server may get lost. -/
inductive Session {E : EmaOps} (C : ArrivalCondition E) (sid : UInt32) (server : List Message) :
    Running E → List Message → Prop
  | begin (bot : TradingBot E) : Session C sid server ⟨bot.beginSession, true⟩ server
  | lose {r : Running E} {m : Message} {rest : List Message} (h : Session C sid server r (m :: rest)) :
      Session C sid server r rest
  | frame {r : Running E} {rest rest' : List Message} (h : Session C sid server r rest)
      {frame : Except Bytes WebSocketFrame} (env : Env) (harrives : Arrives sid frame rest rest')
      (hframe : C r.bot frame) : Session C sid server (r.next (.frame frame env)) rest'

/-- The book is the replay of all the server has sent. -/
def InSync (server rest : List Message) (book : MarketState) : Prop :=
  ∃ passed, server = passed ++ rest ∧ replay passed = some book

theorem InSync.of_replay {passed server rest : List Message} {m : Message} {book : MarketState}
    (hserver : server = passed ++ m :: rest) (hbook : replayStep (replay passed) m = some book) :
    InSync server rest book := by
  refine ⟨passed ++ [m], ?_, ?_⟩
  · rw [hserver, List.append_assoc]
    rfl
  · rw [replay_append, hbook]

/-- A message that is not about the book but shares its numbering continues it. -/
def ContinuesNumbering {E : EmaOps} : ArrivalCondition E := fun bot frame ↦
  ∀ m, received frame = some m → isBookMessage m = false → bot.bookSid = some m.sid → m.seq ≠ 0 →
    m.seq = bot.bookSeq + 1

/-! ## What a message does to the book -/

/-- The two bots have the same book, at the same number. -/
structure SameBook {E : EmaOps} (bot bot' : TradingBot E) : Prop where
  book : bot'.book = bot.book
  bookSid : bot'.bookSid = bot.bookSid
  bookSeq : bot'.bookSeq = bot.bookSeq

namespace TradingBot

variable {E : EmaOps} (bot : TradingBot E)

theorem sameBook_account (signal : Signal) (request : OrderRequest) (answer : Except Bytes Json.JsonValue) :
    SameBook bot (bot.account signal request answer) := by
  rw [account]
  cases readAnswer answer <;> exact ⟨rfl, rfl, rfl⟩

theorem sameBook_submit (signal : Signal) (env : Env) : SameBook bot (bot.submit signal env).1 := by
  have h := sameBook_account
    { bot with orderSeq := bot.orderSeq + 1, http := (bot.submit signal env).2.outcome.client }
    signal (bot.submit signal env).2.request (bot.submit signal env).2.answer
  exact ⟨h.book, h.bookSid, h.bookSeq⟩

theorem sameBook_consult (env : Env) : SameBook bot (bot.consult env).1 := by
  rw [consult]
  generalize bot.strategy.onBookUpdate bot.book bot.exposure env.now = decision
  obtain ⟨strategy, signal⟩ := decision
  cases signal with
  | none => exact ⟨rfl, rfl, rfl⟩
  | some signal =>
      have h := sameBook_submit { bot with strategy := strategy } signal env
      exact ⟨h.book, h.bookSid, h.bookSeq⟩

theorem applyMessage_snapshot {m : Message} {snapshot : OrderBookSnapshot} (h : m.msg = .snapshot snapshot) :
    bot.applyMessage m = ({ bot with book := (bot.book.applySnapshot snapshot).1 },
      (bot.book.applySnapshot snapshot).2.map fun _ ↦ true) := by
  rw [applyMessage, h]

theorem applyMessage_delta {m : Message} {delta : OrderBookDelta} (h : m.msg = .delta delta) :
    bot.applyMessage m = ({ bot with book := (bot.book.applyDelta delta).1 },
      (bot.book.applyDelta delta).2.map fun _ ↦ true) := by
  rw [applyMessage, h]

/-- A message that is not about the book leaves it as it is. -/
theorem applyMessage_other {m : Message} (h : isBookMessage m = false) :
    ∃ bot', bot.applyMessage m = (bot', .ok false) ∧ SameBook bot bot' := by
  rw [applyMessage]
  rw [isBookMessage] at h
  cases hm : m.msg with
  | snapshot s =>
      rw [hm] at h
      cases h
  | delta d =>
      rw [hm] at h
      cases h
  | fill fill =>
      refine ⟨_, rfl, ?_⟩
      rw [onFill]
      cases parseContracts fill.countFp <;> exact ⟨rfl, rfl, rfl⟩
  | none => exact ⟨_, rfl, rfl, rfl, rfl⟩

/-- A message that passes the check and can be applied: the strategy is called on the book it leaves, if it is about
the book. -/
theorem onMessage_of_ok {bot₁ bot₂ : TradingBot E} {m : Message} {changed : Bool}
    (hseq : bot.checkSequence m = some bot₁) (happly : bot₁.applyMessage m = (bot₂, .ok changed)) (env : Env) :
    SameBook bot₂ (bot.onMessage m env).bot ∧
      (bot.onMessage m env).consulted = if changed then some bot₂.book else none := by
  rw [onMessage, hseq]
  dsimp only
  rw [happly]
  cases changed with
  | false => exact ⟨⟨rfl, rfl, rfl⟩, rfl⟩
  | true => exact ⟨bot₂.sameBook_consult env, rfl⟩

/-- A message that cannot be applied ends the session. -/
theorem onMessage_of_error {bot₁ bot₂ : TradingBot E} {m : Message} {e : BookError}
    (hseq : bot.checkSequence m = some bot₁) (happly : bot₁.applyMessage m = (bot₂, .error e)) (env : Env) :
    (bot.onMessage m env).ended = true ∧ (bot.onMessage m env).consulted = none := by
  rw [onMessage, hseq]
  dsimp only
  rw [happly]
  exact ⟨rfl, rfl⟩

theorem onMessage_of_gap {m : Message} (hseq : bot.checkSequence m = none) (env : Env) :
    (bot.onMessage m env).ended = true ∧ (bot.onMessage m env).consulted = none := by
  rw [onMessage, hseq]
  exact ⟨rfl, rfl⟩

/-- The check of a book message with a number. -/
theorem checkSequence_book {m : Message} (hbook : isBookMessage m = true) (hseq : m.seq ≠ 0) :
    bot.checkSequence m =
      if !isSnapshot m && (bot.bookSid ≠ some m.sid || m.seq ≠ bot.bookSeq + 1) then none
      else some { bot with bookSid := some m.sid, bookSeq := m.seq } := by
  have hcond : (isBookMessage m && decide (m.seq ≠ 0)) = true := by
    rw [hbook, decide_eq_true hseq]
    rfl
  rw [checkSequence, if_pos hcond]

/-- Other messages move the number if they share it. -/
theorem checkSequence_other {m : Message} (hbook : isBookMessage m = false) :
    bot.checkSequence m =
      some (if bot.bookSid = some m.sid ∧ m.seq ≠ 0 then { bot with bookSeq := m.seq } else bot) := by
  rw [checkSequence, hbook]
  simp only [Bool.false_and, Bool.false_eq_true, if_false, Bool.and_eq_true, decide_eq_true_eq]
  split <;> rfl

end TradingBot

/-! ## In sync -/

/-- The book of a bot, when the server has still to send `rest`: there is none yet, or it is the replay up to the
message the bot last counted; some messages since may be lost. -/
def Synced {E : EmaOps} (sid : UInt32) (server rest : List Message) (bot : TradingBot E) : Prop :=
  bot.bookSid = none ∨ bot.bookSid = some sid ∧ ∃ passed m lost, server = passed ++ m :: lost ++ rest ∧
    replay (passed ++ [m]) = some bot.book ∧ bot.bookSeq = m.seq

namespace Synced

variable {E : EmaOps} {sid : UInt32} {server rest : List Message} {bot bot' : TradingBot E} {m : Message}

theorem congr (h : Synced sid server rest bot) (hsame : SameBook bot bot') : Synced sid server rest bot' := by
  rw [Synced, hsame.bookSid, hsame.bookSeq, hsame.book]
  exact h

/-- A message gets lost. -/
theorem lose (h : Synced sid server (m :: rest) bot) : Synced sid server rest bot := by
  rcases h with hnone | ⟨hsid, passed, m', lost, hserver, hbook, hseq⟩
  · exact .inl hnone
  · refine .inr ⟨hsid, passed, m', lost ++ [m], ?_, hbook, hseq⟩
    rw [hserver]
    simp

/-- Nothing is lost before a message that continues the numbering. -/
theorem passed_of_continues (hn : Numbered sid server) {passed lost : List Message} {m' : Message}
    (hserver : server = passed ++ m' :: lost ++ m :: rest) (hseq : m.seq = m'.seq + 1) :
    server = passed ++ [m'] ++ m :: rest := by
  have hnum := hn.seq_succ hserver
  have hnil : lost = [] := by
    rw [hseq, UInt32.toNat_add] at hnum
    have hlt := m'.seq.toNat_lt
    refine List.length_eq_zero_iff.mp ?_
    have : (1 : UInt32).toNat = 1 := rfl
    omega
  rw [hserver, hnil]

/-- A message that continues the numbering takes the replay one message further. -/
theorem next (hn : Numbered sid server) (h : Synced sid server (m :: rest) bot) (hsid : bot.bookSid = some sid)
    (hseq : m.seq = bot.bookSeq + 1) :
    ∃ passed, server = passed ++ m :: rest ∧ replay passed = some bot.book := by
  rcases h with hnone | ⟨-, passed, m', lost, hserver, hbook, hseq'⟩
  · rw [hsid] at hnone
    cases hnone
  · rw [hseq'] at hseq
    exact ⟨passed ++ [m'], passed_of_continues hn hserver hseq, hbook⟩

/-- The replay up to a message that has been counted. -/
theorem of_replay {passed : List Message} (hserver : server = passed ++ m :: rest)
    (hbook : replayStep (replay passed) m = some bot.book) (hsid : bot.bookSid = some sid)
    (hseq : bot.bookSeq = m.seq) : Synced sid server rest bot := by
  rw [← replay_append] at hbook
  refine .inr ⟨hsid, passed, m, [], ?_, hbook, hseq⟩
  rw [hserver, List.append_assoc]
  rfl

end Synced

/-- The handling of a frame leaves the bot in sync or ends the session, and if it calls the strategy, then on the
replay. -/
structure Kept {E : EmaOps} (sid : UInt32) (server rest : List Message) (handled : Handled E) : Prop where
  synced : handled.ended = true ∨ Synced sid server rest handled.bot
  inSync : ∀ book, handled.consulted = some book → InSync server rest book

namespace Kept

variable {E : EmaOps} {sid : UInt32} {server rest passed : List Message} {bot bot₁ : TradingBot E} {m : Message}

theorem of_ended {handled : Handled E} (h : handled.ended = true ∧ handled.consulted = none) :
    Kept sid server rest handled where
  synced := .inl h.1
  inSync book hbook := by
    rw [h.2] at hbook
    cases hbook

/-- A book message that has passed the check. -/
theorem of_book {book : MarketState} {result : Except BookError Unit} (env : Env)
    (hseq : bot.checkSequence m = some { bot with bookSid := some m.sid, bookSeq := m.seq })
    (happly : ({ bot with bookSid := some m.sid, bookSeq := m.seq } : TradingBot E).applyMessage m =
      ({ bot with bookSid := some m.sid, bookSeq := m.seq, book := book }, result.map fun _ ↦ true))
    (hsid : m.sid = sid) (hserver : server = passed ++ m :: rest)
    (hbook : result = .ok () → replayStep (replay passed) m = some book) :
    Kept sid server rest (bot.onMessage m env) := by
  cases result with
  | error e => exact of_ended (bot.onMessage_of_error hseq happly env)
  | ok u =>
      obtain ⟨hsame, hconsulted⟩ := bot.onMessage_of_ok hseq happly env
      have hsynced : Synced sid server rest { bot with bookSid := some m.sid, bookSeq := m.seq, book := book } :=
        .of_replay hserver (hbook rfl) (congrArg some hsid) rfl
      refine ⟨.inr (hsynced.congr hsame), fun book' hbook' ↦ ?_⟩
      rw [hconsulted] at hbook'
      cases hbook'
      exact .of_replay hserver (hbook rfl)

theorem onMessage_snapshot {snapshot : OrderBookSnapshot} (hm : m.msg = .snapshot snapshot) (env : Env)
    (hsid : m.sid = sid) (hne : m.seq ≠ 0) (hserver : server = passed ++ m :: rest) :
    Kept sid server rest (bot.onMessage m env) := by
  have hseq := bot.checkSequence_book (by rw [isBookMessage, hm]) hne
  have hsnapshot : isSnapshot m = true := by rw [isSnapshot, hm]
  rw [hsnapshot] at hseq
  refine of_book env hseq (TradingBot.applyMessage_snapshot _ hm) hsid hserver fun hok ↦ ?_
  rw [replayStep, hm]
  exact congrArg some (MarketState.applySnapshot_eq hok {}).symm

theorem onMessage_delta {delta : OrderBookDelta} (hm : m.msg = .delta delta) (env : Env)
    (hn : Numbered sid server) (hsid : m.sid = sid) (hne : m.seq ≠ 0) (h : Synced sid server (m :: rest) bot) :
    Kept sid server rest (bot.onMessage m env) := by
  have hseq := bot.checkSequence_book (by rw [isBookMessage, hm]) hne
  have hsnapshot : isSnapshot m = false := by rw [isSnapshot, hm]
  rw [hsnapshot, Bool.not_false, Bool.true_and] at hseq
  by_cases hgap : (decide (bot.bookSid ≠ some m.sid) || decide (m.seq ≠ bot.bookSeq + 1)) = true
  · rw [if_pos hgap] at hseq
    exact of_ended (bot.onMessage_of_gap hseq env)
  · rw [if_neg hgap] at hseq
    obtain ⟨hbookSid, hnext⟩ : bot.bookSid = some m.sid ∧ m.seq = bot.bookSeq + 1 := by
      simpa using hgap
    rw [hsid] at hbookSid
    obtain ⟨passed, hserver, hbook⟩ := h.next hn hbookSid hnext
    refine of_book env hseq (TradingBot.applyMessage_delta _ hm) hsid hserver fun _ ↦ ?_
    rw [replayStep, hm, hbook]
    rfl

/-- A message that is not about the book. -/
theorem of_other (hbook : isBookMessage m = false) (env : Env)
    (h : Synced sid server rest (if bot.bookSid = some m.sid ∧ m.seq ≠ 0 then { bot with bookSeq := m.seq } else bot)) :
    Kept sid server rest (bot.onMessage m env) := by
  have hseq := bot.checkSequence_other hbook
  obtain ⟨bot₂, happly, hsame⟩ := TradingBot.applyMessage_other _ hbook
  obtain ⟨hsame', hconsulted⟩ := bot.onMessage_of_ok hseq happly env
  refine ⟨.inr ((h.congr hsame).congr hsame'), fun book hbook ↦ ?_⟩
  rw [hconsulted] at hbook
  cases hbook

/-- A message that is not about the book but shares its numbering. -/
theorem onMessage_numbered (hbook : isBookMessage m = false) (env : Env) (hn : Numbered sid server)
    (hsid : m.sid = sid) (h : Synced sid server (m :: rest) bot)
    (hcont : bot.bookSid = some m.sid → m.seq ≠ 0 → m.seq = bot.bookSeq + 1) :
    Kept sid server rest (bot.onMessage m env) := by
  refine of_other hbook env ?_
  split_ifs with hcounted
  · have hbookSid := hcounted.1
    rw [hsid] at hbookSid
    obtain ⟨passed, hserver, hreplay⟩ := h.next hn hbookSid (hcont hcounted.1 hcounted.2)
    refine .of_replay hserver ?_ hbookSid rfl
    rw [hreplay, replayStep_other hbook]
  · exact h.lose

/-- A message of another subscription. -/
theorem onMessage_other (h : IsOther sid m) (env : Env) (hs : Synced sid server rest bot) :
    Kept sid server rest (bot.onMessage m env) := by
  refine of_other h.1 env ?_
  rw [if_neg]
  · exact hs
  · rintro ⟨hsid, hseq⟩
    rcases hs with hnone | ⟨hbookSid, -⟩
    · rw [hnone] at hsid
      cases hsid
    · rw [hbookSid] at hsid
      rcases h.2 with hne | hzero
      · exact hne (Option.some.inj hsid).symm
      · exact hseq hzero

/-- **The next message of the server** keeps the book in sync, or ends the session. -/
theorem onMessage (hn : Numbered sid server) (hserver : server = passed ++ m :: rest)
    (h : Synced sid server (m :: rest) bot)
    (hcont : isBookMessage m = false → bot.bookSid = some m.sid → m.seq ≠ 0 → m.seq = bot.bookSeq + 1)
    (env : Env) : Kept sid server rest (bot.onMessage m env) := by
  have hmem : m ∈ server := by
    rw [hserver]
    exact List.mem_append_right _ List.mem_cons_self
  have hsid := hn.sid_eq m hmem
  have hne := hn.seq_ne_zero hmem
  cases hm : m.msg with
  | snapshot snapshot => exact onMessage_snapshot hm env hsid hne hserver
  | delta delta => exact onMessage_delta hm env hn hsid hne h
  | fill fill =>
      have hbook : isBookMessage m = false := by rw [isBookMessage, hm]
      exact onMessage_numbered hbook env hn hsid h (hcont hbook)
  | none =>
      have hbook : isBookMessage m = false := by rw [isBookMessage, hm]
      exact onMessage_numbered hbook env hn hsid h (hcont hbook)

/-- **A frame** keeps the book in sync, or ends the session. -/
theorem onFrame {rest' : List Message} {frame : Except Bytes WebSocketFrame} (hn : Numbered sid server)
    (hserver : server = passed ++ rest) (h : Synced sid server rest bot) (harrives : Arrives sid frame rest rest')
    (hcont : ContinuesNumbering bot frame) (env : Env) : Kept sid server rest' (bot.onFrame frame env) := by
  have hframe {m : Message} (hm : received frame = some m) (hkept : Kept sid server rest' (bot.onMessage m env)) :
      Kept sid server rest' (bot.onFrame frame env) := by
    obtain ⟨http, hhandled⟩ := bot.onFrame_of_some hm env
    rw [hhandled]
    exact ⟨hkept.synced.imp_right fun hs ↦ hs.congr ⟨rfl, rfl, rfl⟩, hkept.inSync⟩
  cases harrives with
  | next hm => exact hframe hm (onMessage hn hserver h (hcont _ hm) env)
  | other hother =>
      obtain hm | ⟨m, hm⟩ := Option.eq_none_or_eq_some (received frame)
      · obtain ⟨http, ended, hhandled⟩ := bot.onFrame_of_none hm env
        rw [hhandled]
        exact ⟨.inr (h.congr ⟨rfl, rfl, rfl⟩), fun book hbook ↦ by cases hbook⟩
      · exact hframe hm (onMessage_other (hother m hm) env h)

end Kept

/-! ## Sessions -/

namespace Session

variable {E : EmaOps} {C : ArrivalCondition E} {sid : UInt32} {server rest rest' : List Message} {r : Running E}
  {frame : Except Bytes WebSocketFrame}

/-- What the server has still to send is the rest of what it sends. -/
theorem suffix (h : Session C sid server r rest) : ∃ passed, server = passed ++ rest := by
  induction h with
  | begin bot => exact ⟨[], rfl⟩
  | @lose r m rest h ih =>
      obtain ⟨passed, hserver⟩ := ih
      exact ⟨passed ++ [m], by rw [hserver, List.append_assoc]; rfl⟩
  | frame h env harrives hframe ih =>
      obtain ⟨passed, hserver⟩ := ih
      cases harrives with
      | @next m rest hm => exact ⟨passed ++ [m], by rw [hserver, List.append_assoc]; rfl⟩
      | other hother => exact ⟨passed, hserver⟩

/-- As long as the numbering is continued the bot is in sync, while the session lasts. -/
theorem synced (hn : Numbered sid server) (h : Session ContinuesNumbering sid server r rest) :
    r.inSession = true → Synced sid server rest r.bot := by
  induction h with
  | begin bot => exact fun _ ↦ .inl rfl
  | lose h ih => exact fun hin ↦ (ih hin).lose
  | @frame r rest rest' h frame env harrives hframe ih =>
      intro hin
      obtain ⟨passed, hserver⟩ := h.suffix
      rw [Running.next, Bool.and_eq_true, Bool.and_eq_true] at hin
      obtain ⟨⟨hin, hended⟩, -⟩ := hin
      have hkept := Kept.onFrame hn hserver (ih hin) harrives hframe env
      rw [Running.handled, if_pos hin] at hended
      rw [Running.next]
      dsimp only
      rw [Running.handled, if_pos hin]
      rcases hkept.synced with hend | hsynced
      · rw [hend] at hended
        cases hended
      · exact hsynced

end Session

/-- **No lost message goes unnoticed** as long as the messages that share the numbering of the book continue it: the
strategy is called only on the replay of all the server has sent. -/
theorem book_in_sync {E : EmaOps} {sid : UInt32} {server rest rest' : List Message} (hn : Numbered sid server)
    {r : Running E} (h : Session ContinuesNumbering sid server r rest) {frame : Except Bytes WebSocketFrame}
    (harrives : Arrives sid frame rest rest') (hcont : ContinuesNumbering r.bot frame) (env : Env)
    {book : MarketState} (hconsulted : (r.handled frame env).consulted = some book) : InSync server rest' book := by
  obtain ⟨passed, hserver⟩ := h.suffix
  rw [Running.handled] at hconsulted
  split_ifs at hconsulted with hin
  exact (Kept.onFrame hn hserver (h.synced hn hin) harrives hcont env).inSync book hconsulted

/-! ## A hidden loss -/

/-- The messages some frames carry. -/
def carried (frames : List (Except Bytes WebSocketFrame)) : List Message := frames.filterMap received

/-- The message in `snapshotFrame`. -/
def snapshotMessage : Message :=
  ⟨ascii "orderbook_snapshot", 1, 1,
    .snapshot ⟨ascii "T", ascii "M", [(ascii "0.1", ascii "1")], [(ascii "0.59", ascii "1")]⟩⟩

/-- The message in a `deltaFrame`. -/
def deltaMessage (seq : UInt32) : Message :=
  ⟨ascii "orderbook_delta", 1, seq, .delta ⟨ascii "T", ascii "M", ascii "0.8", ascii "1", ascii "no", ascii "0", 0⟩⟩

/-- The message in a `fillFrame` for one contract. -/
def fillMessage (seq : UInt32) : Message :=
  ⟨ascii "fill", 1, seq, .fill ⟨ascii "A", ascii "T", ascii "1.00", .buy⟩⟩

/-- The frames carry these messages. -/
theorem received_frames :
    received snapshotFrame = some snapshotMessage ∧ received (deltaFrame "2") = some (deltaMessage 2) ∧
      received (fillFrame "3" "\"1.00\"") = some (fillMessage 3) ∧
      received (deltaFrame "4") = some (deltaMessage 4) := by
  decide +kernel

theorem received_snapshotFrame : received snapshotFrame = some snapshotMessage := received_frames.1

theorem received_deltaFrame_two : received (deltaFrame "2") = some (deltaMessage 2) := received_frames.2.1

theorem received_fillFrame : received (fillFrame "3" "\"1.00\"") = some (fillMessage 3) := received_frames.2.2.1

theorem received_deltaFrame_four : received (deltaFrame "4") = some (deltaMessage 4) := received_frames.2.2.2

theorem carried_two : carried [snapshotFrame, deltaFrame "2"] = [snapshotMessage, deltaMessage 2] := by
  simp only [carried, List.filterMap_cons, List.filterMap_nil, received_snapshotFrame, received_deltaFrame_two]

/-- A book message continues any numbering. -/
theorem continuesNumbering_of_book {E : EmaOps} {frame : Except Bytes WebSocketFrame} {m : Message}
    (h : received frame = some m) (hbook : isBookMessage m = true) (bot : TradingBot E) :
    ContinuesNumbering bot frame := by
  intro m' hm' hother
  rw [h] at hm'
  cases hm'
  rw [hbook] at hother
  cases hother

/-- The hypotheses of `book_in_sync` hold of a delta after a snapshot. -/
theorem book_in_sync_delta :
    ∃ book, ((withSnapshot (eagerBot 5 2)).handled (deltaFrame "2") {}).consulted = some book ∧
      InSync (carried [snapshotFrame, deltaFrame "2"]) [] book := by
  rw [carried_two]
  have hn : Numbered 1 [snapshotMessage, deltaMessage 2] := ⟨by decide, 1, by decide, by decide⟩
  have hbegin : Session ContinuesNumbering 1 [snapshotMessage, deltaMessage 2]
      ((⟨eagerBot 5 2, false⟩ : Running exactOps).next .session) [snapshotMessage, deltaMessage 2] := .begin _
  have hsnapshot : Session ContinuesNumbering 1 [snapshotMessage, deltaMessage 2] (withSnapshot (eagerBot 5 2))
      [deltaMessage 2] :=
    hbegin.frame {} (.next received_snapshotFrame) (continuesNumbering_of_book received_snapshotFrame rfl _)
  obtain ⟨book, hconsulted⟩ := Option.isSome_iff_exists.mp (by decide +kernel :
    ((withSnapshot (eagerBot 5 2)).handled (deltaFrame "2") {}).consulted.isSome = true)
  exact ⟨book, hconsulted, book_in_sync hn hsnapshot (.next received_deltaFrame_two)
    (continuesNumbering_of_book received_deltaFrame_two rfl _) {} hconsulted⟩

/-- Four messages of a server: a snapshot, a delta, a fill and another delta at the same price. -/
def fourMessages : List Message :=
  carried [snapshotFrame, deltaFrame "2", fillFrame "3" "\"1.00\"", deltaFrame "4"]

/-- The bot after the snapshot and the fill. -/
def afterLoss : Running exactOps := (withSnapshot (eagerBot 5 2)).next (.frame (fillFrame "3" "\"1.00\"") {})

theorem fourMessages_eq : fourMessages = [snapshotMessage, deltaMessage 2, fillMessage 3, deltaMessage 4] := by
  simp only [fourMessages, carried, List.filterMap_cons, List.filterMap_nil, received_snapshotFrame,
    received_deltaFrame_two, received_fillFrame, received_deltaFrame_four]

theorem carried_last : carried [deltaFrame "4"] = [deltaMessage 4] := by
  simp only [carried, List.filterMap_cons, List.filterMap_nil, received_deltaFrame_four]

/-- **A lost delta goes unnoticed** when a fill message that shares the numbering arrives after it: the second delta
continues the number of the fill, and the strategy is called on a book that lacks the first. -/
theorem book_out_of_sync :
    Numbered 1 fourMessages ∧ Session (fun _ _ ↦ True) 1 fourMessages afterLoss (carried [deltaFrame "4"]) ∧
      Arrives 1 (deltaFrame "4") (carried [deltaFrame "4"]) [] ∧
      ∃ book, (afterLoss.handled (deltaFrame "4") {}).consulted = some book ∧ ¬InSync fourMessages [] book := by
  rw [fourMessages_eq, carried_last]
  refine ⟨⟨by decide, 1, by decide, by decide⟩, ?_, .next received_deltaFrame_four, ?_⟩
  · have hbegin : Session (fun _ _ ↦ True) 1 [snapshotMessage, deltaMessage 2, fillMessage 3, deltaMessage 4]
        ((⟨eagerBot 5 2, false⟩ : Running exactOps).next .session)
        [snapshotMessage, deltaMessage 2, fillMessage 3, deltaMessage 4] := .begin _
    have hsnapshot : Session (fun _ _ ↦ True) 1 [snapshotMessage, deltaMessage 2, fillMessage 3, deltaMessage 4]
        (withSnapshot (eagerBot 5 2)) [deltaMessage 2, fillMessage 3, deltaMessage 4] :=
      hbegin.frame {} (.next received_snapshotFrame) trivial
    exact hsnapshot.lose.frame {} (.next received_fillFrame) trivial
  · -- The strategy sees one contract at $0.80, the server has sent two.
    obtain ⟨book, hconsulted, hseen⟩ := Option.map_eq_some_iff.mp (by decide +kernel :
      (afterLoss.handled (deltaFrame "4") {}).consulted.map (fun book ↦ book.no.levels 800) = some 100)
    have hsent : (replay [snapshotMessage, deltaMessage 2, fillMessage 3, deltaMessage 4]).map
        (fun book ↦ book.no.levels 800) = some 200 := by decide +kernel
    refine ⟨book, hconsulted, ?_⟩
    rintro ⟨passed, hserver, hreplay⟩
    rw [List.append_nil] at hserver
    rw [hserver, hreplay, Option.map_some, hseen] at hsent
    cases hsent

end KalshiClient.Trading
