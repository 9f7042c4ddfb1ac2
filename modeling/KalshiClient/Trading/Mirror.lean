import KalshiClient.Protocol.Wording
import KalshiClient.Trading.Book
import KalshiClient.Trading.FixedPointExact
import KalshiClient.Trading.Process
import KalshiClient.Trading.Sequence

/-!
# The book mirrors the exchange

The exchange has a volume at every price of either side.  It tells a subscriber what there is with a snapshot, and
every change with a delta, each in a JSON text in a WebSocket frame, and numbers what it tells.  Other frames come in
between.

A subscriber that misses nothing has the same book: after every frame the levels of the bot's book are the volumes at
the exchange, its best prices are the best ones there, and the session goes on (`book_mirrors_exchange`).  This is so
for any JSON the exchange may choose, however the bytes are cut, whatever the bot orders on the way, and whatever was
left of an earlier session.
-/

namespace KalshiClient.Trading

open Bytes Protocol WebSocket Incremental

/-! ## The exchange -/

/-- A volume, in hundredths of a contract. -/
abbrev Volume := {q : Nat // q ≤ I64.max}

/-- What is bid for at the exchange: YES or NO, at each price. -/
abbrev Depth := Bool → BookPrice → Volume

/-- The entries list the volumes of a side; a price without volume may be left out. -/
structure Enumerates (entries : List PriceLevel) (side : BookPrice → Volume) : Prop where
  sound : ∀ e ∈ entries, ∃ p, Denotes kPriceDecimals e.1 p.val ∧ Denotes 2 e.2 (side p).val
  complete : ∀ p, (side p).val ≠ 0 → ∃ e ∈ entries, Denotes kPriceDecimals e.1 p.val

/-- The name of a side. -/
def sideName (isYes : Bool) : Bytes := if isYes then ascii "yes" else ascii "no"

/-- The delta tells the difference of two depths, which is at one price. -/
def Changes (d : OrderBookDelta) (depth depth' : Depth) : Prop :=
  ∃ (isYes : Bool) (price : BookPrice) (qty : Int), d.side = sideName isYes ∧
    Denotes kPriceDecimals d.priceDollars price.val ∧ Denotes 2 d.deltaFp qty ∧
    ∀ b p, ((depth' b p).val : Int) = (depth b p).val + if b = isYes ∧ p = price then qty else 0

/-- What a subscriber has been told: nothing yet, or the depth up to the message with a number. -/
abbrev Told := Option (UInt32 × Depth)

/-- What a frame announces to a subscriber. -/
inductive Announces (sid : UInt32) (frame : WebSocketFrame) : Told → Told → Prop
  | snapshot {told : Told} {seq : UInt32} {s : OrderBookSnapshot} {depth : Depth} {root msg : Json.JsonObject}
      (text : frame.opCode = .text) (writes : Writes frame.payload sid seq (.snapshot s) root msg) (numbered : seq ≠ 0)
      (levels : ∀ b, Enumerates (listed s b) (depth b)) : Announces sid frame told (some (seq, depth))
  | delta {seq : UInt32} {d : OrderBookDelta} {depth depth' : Depth} {root msg : Json.JsonObject}
      (text : frame.opCode = .text) (writes : Writes frame.payload sid (seq + 1) (.delta d) root msg)
      (numbered : seq + 1 ≠ 0) (changes : Changes d depth depth') :
      Announces sid frame (some (seq, depth)) (some (seq + 1, depth'))
  | fill {seq : UInt32} {f : Fill} {depth : Depth} {root msg : Json.JsonObject} (text : frame.opCode = .text)
      (writes : Writes frame.payload sid (seq + 1) (.fill f) root msg) (numbered : seq + 1 ≠ 0) :
      Announces sid frame (some (seq, depth)) (some (seq + 1, depth))
  | other {told : Told} (opened : frame.opCode ≠ .close) (other : ∀ m, received (.ok frame) = some m → IsOther sid m) :
      Announces sid frame told told

/-- What some frames tell, one after the other. -/
inductive Feed (sid : UInt32) : Told → List WebSocketFrame → Told → Prop
  | nil (told : Told) : Feed sid told [] told
  | cons {told told' told'' : Told} {frame : WebSocketFrame} {frames : List WebSocketFrame}
      (head : Announces sid frame told told') (tail : Feed sid told' frames told'') : Feed sid told (frame :: frames) told''

/-! ## The book -/

/-- The book is what there is at the exchange. -/
structure Mirrors (depth : Depth) (book : MarketState) : Prop where
  wf : book.Wf
  level : ∀ b (p : BookPrice), book.level b p.val = (depth b p).val

/-- A price is read as what it denotes. -/
theorem parsePrice_of_denotes {s : Bytes} {p : BookPrice} (h : Denotes kPriceDecimals s p.val) : parsePrice s = .ok p := by
  obtain ⟨p, hp⟩ := p
  have hmax : kMaxPrice = 1000 := rfl
  have hrange : |(p : Int)| ≤ I64.max := by
    have : I64.max = 9223372036854775807 := rfl
    rw [abs_of_nonneg (Int.natCast_nonneg p)]
    omega
  rw [parsePrice, parseFixed_eq_some_iff.mpr ⟨h, hrange⟩]
  dsimp only
  rw [dif_pos (by omega)]
  rfl

/-- So is a quantity. -/
theorem parseQuantity_of_denotes {s : Bytes} {q : Int} (h : Denotes 2 s q) (hq : |q| ≤ I64.max) :
    parseQuantity s = .ok q := by
  rw [parseQuantity, parseFixed_eq_some_iff.mpr ⟨h, hq⟩]

theorem Volume.abs_le (v : Volume) : |(v.val : Int)| ≤ I64.max := by
  rw [abs_of_nonneg (Int.natCast_nonneg _)]
  exact Int.ofNat_le.mpr v.property

/-- What the entries of a snapshot leave at a price: the volume there, or what there was if it is not listed. -/
theorem parseLevels_of_sound {side : BookPrice → Volume} {entries : List PriceLevel}
    (h : ∀ e ∈ entries, ∃ p, Denotes kPriceDecimals e.1 p.val ∧ Denotes 2 e.2 (side p).val) (levels : Levels) :
    ∃ levels', parseLevels entries levels = .ok levels' ∧ ∀ p : BookPrice, levels' p.val = (side p).val ∨
      levels' p.val = levels p.val ∧ ∀ e ∈ entries, ¬ Denotes kPriceDecimals e.1 p.val := by
  induction entries generalizing levels with
  | nil => exact ⟨levels, rfl, fun p ↦ .inr ⟨rfl, fun e he ↦ absurd he List.not_mem_nil⟩⟩
  | cons e entries ih =>
      obtain ⟨q, hprice, hqty⟩ := h e List.mem_cons_self
      obtain ⟨levels', hparse, hlevels⟩ := ih (fun e he ↦ h e (List.mem_cons_of_mem _ he))
        (Function.update levels q.val (side q).val)
      refine ⟨levels', ?_, fun p ↦ ?_⟩
      · rw [parseLevels, parsePrice_of_denotes hprice, parseQuantity_of_denotes hqty (side q).abs_le]
        exact hparse
      · rcases hlevels p with hlisted | ⟨hkept, hnone⟩
        · exact .inl hlisted
        · by_cases hp : p = q
          · rw [hp, Function.update_self] at hkept
            exact .inl (hp ▸ hkept)
          · have hne : p.val ≠ q.val := fun heq ↦ hp (Subtype.ext heq)
            rw [Function.update_of_ne hne] at hkept
            refine .inr ⟨hkept, List.forall_mem_cons.mpr ⟨fun hdenotes ↦ hp ?_, hnone⟩⟩
            have := (parsePrice_of_denotes hdenotes).symm.trans (parsePrice_of_denotes hprice)
            exact Except.ok.inj this

theorem Enumerates.parseLevels {entries : List PriceLevel} {side : BookPrice → Volume} (h : Enumerates entries side) :
    ∃ levels, parseLevels entries (fun _ ↦ 0) = .ok levels ∧ ∀ p : BookPrice, levels p.val = (side p).val := by
  obtain ⟨levels, hparse, hlevels⟩ := parseLevels_of_sound h.sound fun _ ↦ 0
  refine ⟨levels, hparse, fun p ↦ (hlevels p).elim id fun ⟨hzero, hnone⟩ ↦ ?_⟩
  by_cases hempty : (side p).val = 0
  · rw [hzero, hempty]
    rfl
  · obtain ⟨e, he, hdenotes⟩ := h.complete p hempty
    exact absurd hdenotes (hnone e he)

namespace Mirrors

variable {depth depth' : Depth} {book : MarketState}

/-- A snapshot of the depth. -/
theorem applySnapshot (hwf : book.Wf) {s : OrderBookSnapshot} (h : ∀ b, Enumerates (listed s b) (depth b)) :
    (book.applySnapshot s).2 = .ok () ∧ Mirrors depth (book.applySnapshot s).1 := by
  have hreadable : Readable s := fun b ↦ (h b).parseLevels.imp fun _ hlevels ↦ hlevels.1
  rcases book.applySnapshot_level s with ⟨hno, -⟩ | ⟨hok, hlevels⟩
  · exact absurd hreadable hno
  · refine ⟨hok, hwf.call (.snapshot s), fun b p ↦ ?_⟩
    obtain ⟨levels, hparse, hvolume⟩ := (h b).parseLevels
    obtain rfl : levels = _ := Except.ok.inj (hparse.symm.trans (hlevels b))
    exact hvolume p

theorem parseDeltaArgs {d : OrderBookDelta} {isYes : Bool} {price : BookPrice} {qty : Int}
    (hside : d.side = sideName isYes) (hprice : Denotes kPriceDecimals d.priceDollars price.val)
    (hdelta : Denotes 2 d.deltaFp qty) (hqty : |qty| ≤ I64.max) :
    MarketState.parseDeltaArgs d = .ok (isYes, price, qty) := by
  rw [MarketState.parseDeltaArgs, hside, parsePrice_of_denotes hprice, parseQuantity_of_denotes hdelta hqty]
  cases isYes <;> rfl

/-- A delta to another depth. -/
theorem applyDelta (h : Mirrors depth book) {d : OrderBookDelta} (hchanges : Changes d depth depth') :
    (book.applyDelta d).2 = .ok () ∧ Mirrors depth' (book.applyDelta d).1 := by
  obtain ⟨isYes, price, qty, hside, hprice, hdelta, hsum⟩ := hchanges
  have hmax : I64.max = 9223372036854775807 := rfl
  have hhere : book.level isYes price.val + qty = (depth' isYes price).val := by
    rw [h.level, hsum, if_pos ⟨rfl, rfl⟩]
  have hafter := (depth' isYes price).property
  have hrange : I64.InRange (book.level isYes price.val + qty) := by
    rw [hhere]
    constructor <;> omega
  have hqty : |qty| ≤ I64.max := by
    have hbefore := (depth isYes price).property
    have hdiff : ((depth isYes price).val : Int) + qty = (depth' isYes price).val := by
      rw [← h.level]
      exact hhere
    rw [abs_le]
    constructor <;> omega
  have hargs := parseDeltaArgs hside hprice hdelta hqty
  have hok : (book.applyDelta d).2 = .ok () := by
    rw [MarketState.applyDelta_eq_ok hargs, I64.wrap_eq_self hrange, hhere]
    exact Int.natCast_nonneg _
  refine ⟨hok, h.wf.call (.delta d), fun b p ↦ ?_⟩
  rw [MarketState.applyDelta_level hargs, I64.wrap_eq_self hrange, hhere, hsum b p, ← h.level b p]
  by_cases haddressed : b = isYes ∧ p = price
  · obtain ⟨rfl, rfl⟩ := haddressed
    rw [if_pos ⟨rfl, rfl⟩, if_pos ⟨rfl, rfl⟩, hhere]
    exact max_eq_right (Int.natCast_nonneg _)
  · have hval : ¬ (b = isYes ∧ p.val = price.val) := fun ⟨hb, hp⟩ ↦ haddressed ⟨hb, Subtype.ext hp⟩
    rw [if_neg haddressed, if_neg hval, Int.add_zero]

end Mirrors

/-- The prices with a bid at the exchange. -/
def Depth.bids (depth : Depth) (isYes : Bool) : Set BookPrice := {p | 0 < (depth isYes p).val}

namespace Mirrors

variable {depth : Depth} {book : MarketState} (h : Mirrors depth book)
include h

/-- A price is the best of a side of the book if it is the best at the exchange. -/
theorem isGreatest_iff (isYes : Bool) (hwf : (book.side isYes).Wf) (p : BookPrice) :
    IsGreatest (book.side isYes).levels.bids p.val ↔ IsGreatest (Depth.bids depth isYes) p := by
  have hmem (q : BookPrice) : q.val ∈ (book.side isYes).levels.bids ↔ q ∈ Depth.bids depth isYes := by
    have hlevel : (book.side isYes).levels q.val = (depth isYes q).val := h.level isYes q
    rw [Levels.bids, Set.mem_ofPred_eq, hlevel, Depth.bids, Set.mem_ofPred_eq, Int.natCast_pos]
    exact and_iff_right q.property.2.le
  constructor
  · rintro ⟨hp, hle⟩
    exact ⟨(hmem p).mp hp, fun q hq ↦ hle ((hmem q).mpr hq)⟩
  · rintro ⟨hp, hle⟩
    refine ⟨(hmem p).mpr hp, fun q hq ↦ ?_⟩
    exact hle ((hmem ⟨q, hwf.range_of_mem_bids hq⟩).mp hq)

theorem bestYesBid_iff (p : BookPrice) : book.bestYesBid = some (p.val : Int) ↔ IsGreatest (Depth.bids depth true) p := by
  rw [h.wf.bestYesBid_eq_some_iff, ← h.isGreatest_iff true h.wf.yes]
  constructor
  · rintro ⟨q, hq, hgreatest⟩
    obtain rfl : p.val = q := Int.ofNat_inj.mp hq
    exact hgreatest
  · exact fun hgreatest ↦ ⟨p.val, rfl, hgreatest⟩

theorem bestYesAsk_iff (p : BookPrice) :
    book.bestYesAsk = some (kMaxPrice - p.val : Int) ↔ IsGreatest (Depth.bids depth false) p := by
  rw [h.wf.bestYesAsk_eq_some_iff, ← h.isGreatest_iff false h.wf.no]
  constructor
  · rintro ⟨q, hq, hgreatest⟩
    obtain rfl : p.val = q := Int.ofNat_inj.mp (sub_right_inj.mp hq)
    exact hgreatest
  · exact fun hgreatest ↦ ⟨p.val, rfl, hgreatest⟩

end Mirrors

/-! ## A frame -/

/-- The bot has the book it has been told. -/
def Mirrored {E : EmaOps} (sid : UInt32) (told : Told) (bot : TradingBot E) : Prop :=
  match told with
  | none => bot.bookSid = none ∧ bot.book.Wf
  | some (seq, depth) => bot.bookSid = some sid ∧ bot.bookSeq = seq ∧ Mirrors depth bot.book

namespace Mirrored

variable {E : EmaOps} {sid seq : UInt32} {told told' : Told} {bot bot' : TradingBot E} {depth depth' : Depth}

theorem congr (h : Mirrored sid told bot) (hsame : SameBook bot bot') : Mirrored sid told bot' := by
  obtain ⟨hbook, hbookSid, hbookSeq⟩ := hsame
  rcases told with _ | ⟨seq, depth⟩
  · exact ⟨hbookSid.trans h.1, hbook ▸ h.2⟩
  · exact ⟨hbookSid.trans h.1, hbookSeq.trans h.2.1, hbook ▸ h.2.2⟩

theorem wf (h : Mirrored sid told bot) : bot.book.Wf := by
  rcases told with _ | ⟨seq, depth⟩
  · exact h.2
  · exact h.2.2.wf

end Mirrored

/-- The handling of a frame leaves the session on, with the book as told. -/
def Lasts {E : EmaOps} (sid : UInt32) (told : Told) (handled : Handled E) : Prop :=
  handled.ended = false ∧ Mirrored sid told handled.bot

namespace Lasts

variable {E : EmaOps} {sid seq : UInt32} {told told' : Told} {bot bot₁ bot₂ : TradingBot E} {depth depth' : Depth}
  {m : Message}

/-- A message that passes the check and can be applied. -/
theorem of_ok {changed : Bool} (hseq : bot.checkSequence m = some bot₁) (happly : bot₁.applyMessage m = (bot₂, .ok changed))
    (h : Mirrored sid told bot₂) (env : Env) : Lasts sid told (bot.onMessage m env) := by
  refine ⟨?_, h.congr (bot.onMessage_of_ok hseq happly env).1⟩
  rw [TradingBot.onMessage, hseq]
  dsimp only
  rw [happly]
  cases changed <;> rfl

/-- A snapshot, at any time. -/
theorem snapshot (h : Mirrored sid told bot) {s : OrderBookSnapshot} (hm : m.msg = .snapshot s) (hsid : m.sid = sid)
    (hseq : m.seq = seq) (hne : seq ≠ 0) (hlevels : ∀ b, Enumerates (listed s b) (depth b)) (env : Env) :
    Lasts sid (some (seq, depth)) (bot.onMessage m env) := by
  subst hsid hseq
  have hcheck := bot.checkSequence_book (by rw [isBookMessage, hm]) hne
  have hsnapshot : isSnapshot m = true := by rw [isSnapshot, hm]
  rw [hsnapshot] at hcheck
  obtain ⟨hok, hmirrors⟩ := Mirrors.applySnapshot h.wf hlevels
  have happly := TradingBot.applyMessage_snapshot { bot with bookSid := some m.sid, bookSeq := m.seq } hm
  dsimp only at happly
  rw [hok] at happly
  have hmirrored : Mirrored m.sid (some (m.seq, depth))
      { bot with book := (bot.book.applySnapshot s).1, bookSid := some m.sid, bookSeq := m.seq } :=
    ⟨rfl, rfl, hmirrors⟩
  exact of_ok hcheck happly hmirrored env

/-- The next delta. -/
theorem delta (h : Mirrored sid (some (seq, depth)) bot) {d : OrderBookDelta} (hm : m.msg = .delta d) (hsid : m.sid = sid)
    (hseq : m.seq = seq + 1) (hne : seq + 1 ≠ 0) (hchanges : Changes d depth depth') (env : Env) :
    Lasts sid (some (seq + 1, depth')) (bot.onMessage m env) := by
  obtain ⟨hbookSid, hbookSeq, hmirrors⟩ := h
  have hcheck := bot.checkSequence_book (by rw [isBookMessage, hm]) (hseq ▸ hne)
  have hnext : (!isSnapshot m && (decide (bot.bookSid ≠ some m.sid) || decide (m.seq ≠ bot.bookSeq + 1))) = false := by
    rw [hbookSid, hbookSeq, hsid, hseq]
    simp
  rw [hnext, if_neg Bool.false_ne_true] at hcheck
  obtain ⟨hok, hmirrors'⟩ := hmirrors.applyDelta hchanges
  have happly := TradingBot.applyMessage_delta { bot with bookSid := some m.sid, bookSeq := m.seq } hm
  dsimp only at happly
  rw [hok] at happly
  have hmirrored : Mirrored sid (some (seq + 1, depth'))
      { bot with book := (bot.book.applyDelta d).1, bookSid := some m.sid, bookSeq := m.seq } :=
    ⟨congrArg some hsid, hseq, hmirrors'⟩
  exact of_ok hcheck happly hmirrored env

/-- A message that is not about the book. -/
theorem of_other (hbook : isBookMessage m = false)
    (h : Mirrored sid told (if bot.bookSid = some m.sid ∧ m.seq ≠ 0 then { bot with bookSeq := m.seq } else bot))
    (env : Env) : Lasts sid told (bot.onMessage m env) := by
  obtain ⟨bot₂, happly, hsame⟩ := TradingBot.applyMessage_other _ hbook
  exact of_ok (bot.checkSequence_other hbook) happly (h.congr hsame) env

/-- The next message, if it is not about the book. -/
theorem numbered (h : Mirrored sid (some (seq, depth)) bot) (hbook : isBookMessage m = false) (hsid : m.sid = sid)
    (hseq : m.seq = seq + 1) (hne : seq + 1 ≠ 0) (env : Env) :
    Lasts sid (some (seq + 1, depth)) (bot.onMessage m env) := by
  obtain ⟨hbookSid, -, hmirrors⟩ := h
  refine of_other hbook ?_ env
  rw [if_pos ⟨hbookSid.trans (congrArg some hsid.symm), hseq ▸ hne⟩]
  exact ⟨hbookSid, hseq, hmirrors⟩

/-- A message without a number, or of another subscription. -/
theorem unnumbered (h : Mirrored sid told bot) (hother : IsOther sid m) (env : Env) :
    Lasts sid told (bot.onMessage m env) := by
  refine of_other hother.1 ?_ env
  rw [if_neg]
  · exact h
  · rintro ⟨hsid, hne⟩
    rcases told with _ | ⟨seq, depth⟩
    · rw [h.1] at hsid
      cases hsid
    · rw [h.1] at hsid
      exact hother.2.elim (fun hdiff ↦ hdiff (Option.some.inj hsid).symm) hne

/-- A frame with a message. -/
theorem of_received {frame : WebSocketFrame} {env : Env} (hm : received (.ok frame) = some m)
    (h : Lasts sid told (bot.onMessage m env)) : Lasts sid told (bot.onFrame (.ok frame) env) := by
  obtain ⟨http, hhandled⟩ := bot.onFrame_of_some hm env
  rw [hhandled]
  exact ⟨h.1, h.2.congr ⟨rfl, rfl, rfl⟩⟩

theorem received_of_writes {frame : WebSocketFrame} {payload : Payload} {root msg : Json.JsonObject}
    (htext : frame.opCode = .text) (h : Writes frame.payload sid seq payload root msg) :
    received (.ok frame) = some ⟨payload.typeName, sid, seq, payload⟩ := by
  rw [received, if_pos htext, decodeKalshiMessage_of_writes h]
  rfl

/-- **A frame** of the feed. -/
theorem onFrame (h : Mirrored sid told bot) {frame : WebSocketFrame} (hframe : Announces sid frame told told')
    (env : Env) : Lasts sid told' (bot.onFrame (.ok frame) env) := by
  cases hframe with
  | snapshot text writes numbered levels =>
      exact of_received (received_of_writes text writes) (snapshot h rfl rfl rfl numbered levels env)
  | delta text writes numbered changes =>
      exact of_received (received_of_writes text writes) (delta h rfl rfl rfl numbered changes env)
  | fill text writes ne =>
      exact of_received (received_of_writes text writes) (numbered h rfl rfl rfl ne env)
  | other opened other =>
      obtain hnone | ⟨m, hm⟩ := Option.eq_none_or_eq_some (received (.ok frame))
      · obtain ⟨http, hhandled⟩ := bot.onFrame_skipped env (isSkipped_of_received hnone opened)
        rw [hhandled]
        exact ⟨rfl, h.congr ⟨rfl, rfl, rfl⟩⟩
      · exact of_received hm (unnumbered h (other m hm) env)

end Lasts

/-! ## The process -/

/-- What is still to be read from a socket. -/
def Socket.stream (ws : Socket) : Bytes := ws.buffer ++ ws.pending.flatten

namespace Process

variable {E : EmaOps}

/-- A frame at the beginning of the stream is received, however it is cut. -/
theorem receive_encode (p : Process E) {ws : Socket} {w : WireFrame} {rest : Bytes} (h : ws.stream = w.encode ++ rest)
    (receivedData : Bool) : ∃ ws', ws'.stream = rest ∧
      p.receive ws receivedData = ({ p with pc := .handling w.frame ws' receivedData }, [.received w.frame]) := by
  have hspec := receive_spec stable_frameVerdict ws.lost ws.buffer ws.pending
  dsimp only at hspec
  rw [← Socket.stream, h, frameVerdict_encode] at hspec
  obtain ⟨hresult, hleft⟩ := hspec
  rw [List.drop_left] at hleft
  refine ⟨⟨(receiveFrame ws.lost ws.buffer ws.pending).buffer, (receiveFrame ws.lost ws.buffer ws.pending).pending, ws.lost⟩,
    hleft, ?_⟩
  rw [receive, receiveFrame, hresult]

/-- Three steps for a frame that does not end the session. -/
theorem runs_frame {bot : TradingBot E} (backoff : Nat) {ws : Socket} (receivedData : Bool) {w : WireFrame}
    {rest : Bytes} (hrunning : bot.running = true) (h : ws.stream = w.encode ++ rest) (t₁ t₂ t₃ : Turn)
    (hlasts : (bot.onFrame (.ok w.frame) t₃.env).ended = false) :
    ∃ ws' receivedData', ws'.stream = rest ∧
      (runs ⟨bot, backoff, .checking ws receivedData⟩ [.turn t₁, .turn t₂, .turn t₃]).1 =
        ⟨(bot.onFrame (.ok w.frame) t₃.env).bot, backoff, .checking ws' receivedData'⟩ := by
  obtain ⟨ws', hstream, hreceive⟩ := receive_encode ⟨bot, backoff, .receiving ws receivedData⟩ h receivedData
  refine ⟨ws', receivedData || (bot.onFrame (.ok w.frame) t₃.env).receivedData, hstream, ?_⟩
  have hcheck : (⟨bot, backoff, .checking ws receivedData⟩ : Process E).step (.turn t₁) =
      (⟨bot, backoff, .receiving ws receivedData⟩, []) := by
    rw [step, advance]
    dsimp only
    rw [if_pos hrunning]
  have hreceived : (⟨bot, backoff, .receiving ws receivedData⟩ : Process E).step (.turn t₂) =
      (⟨bot, backoff, .handling w.frame ws' receivedData⟩, [.received w.frame]) := hreceive
  have hhandle : ((⟨bot, backoff, .handling w.frame ws' receivedData⟩ : Process E).step (.turn t₃)).1 =
      ⟨(bot.onFrame (.ok w.frame) t₃.env).bot, backoff,
        .checking ws' (receivedData || (bot.onFrame (.ok w.frame) t₃.env).receivedData)⟩ := by
    rw [step, advance]
    dsimp only
    rw [handle, hlasts]
    rfl
  rw [runs, Mealy.run, hcheck, Mealy.run, hreceived, Mealy.run, Mealy.run]
  exact hhandle

/-- What some frames tell arrives in the book. -/
theorem runs_feed {sid : UInt32} {told told' : Told} {wires : List WireFrame} {rest : Bytes}
    (hfeed : Feed sid told (wires.map WireFrame.frame) told') {bot : TradingBot E} (backoff : Nat) {ws : Socket}
    (receivedData : Bool) (hrunning : bot.running = true) (hmirrored : Mirrored sid told bot)
    (h : ws.stream = wires.flatMap WireFrame.encode ++ rest) {turns : List Turn} (hturns : turns.length = 3 * wires.length) :
    ∃ bot' ws' receivedData', Mirrored sid told' bot' ∧ ws'.stream = rest ∧
      (runs ⟨bot, backoff, .checking ws receivedData⟩ (turns.map .turn)).1 =
        ⟨bot', backoff, .checking ws' receivedData'⟩ := by
  induction wires generalizing told bot ws receivedData turns with
  | nil =>
      cases hfeed
      obtain rfl := List.length_eq_zero_iff.mp hturns
      exact ⟨bot, ws, receivedData, hmirrored, h, rfl⟩
  | cons w wires ih =>
      obtain _ | ⟨t₁, _ | ⟨t₂, _ | ⟨t₃, turns⟩⟩⟩ := turns
      · exact absurd hturns (by rw [List.length_cons, List.length_nil]; omega)
      · exact absurd hturns (by rw [List.length_cons, List.length_cons, List.length_nil]; omega)
      · exact absurd hturns (by rw [List.length_cons, List.length_cons, List.length_cons, List.length_nil]; omega)
      have hrest : turns.length = 3 * wires.length := by
        rw [List.length_cons, List.length_cons, List.length_cons, List.length_cons] at hturns
        omega
      cases hfeed with
      | cons head tail =>
          obtain ⟨hlasts, hmirrored'⟩ := Lasts.onFrame hmirrored head t₃.env
          rw [List.flatMap_cons, List.append_assoc] at h
          obtain ⟨ws', receivedData', hstream, hframe⟩ :=
            runs_frame backoff receivedData hrunning h t₁ t₂ t₃ hlasts
          have hrunning' := (TradingBot.onFrame_running hlasts).trans hrunning
          obtain ⟨bot'', ws'', receivedData'', hlast⟩ :=
            ih tail receivedData' hrunning' hmirrored' hstream hrest
          refine ⟨bot'', ws'', receivedData'', hlast.1, hlast.2.1, ?_⟩
          have hsplit : (t₁ :: t₂ :: t₃ :: turns).map Act.turn = [.turn t₁, .turn t₂, .turn t₃] ++ turns.map .turn := rfl
          rw [runs] at hframe
          rw [hsplit, runs, Mealy.run_append, hframe]
          exact hlast.2.2

end Process

/-- **The book mirrors the exchange.**  At the beginning of a session let the bytes that are to arrive begin with the
frames in which the exchange tells its depth.  Three steps of the process for each of them later, the session is still
on, these frames have been taken off the stream, the levels of the book are the volumes at the exchange, and the best
prices of the book are the best ones there. -/
theorem book_mirrors_exchange {E : EmaOps} (bot : TradingBot E) (hrunning : bot.running = true) {sid seq : UInt32}
    {depth : Depth} {wires : List WireFrame} (hfeed : Feed sid none (wires.map WireFrame.frame) (some (seq, depth)))
    {ws : Socket} {rest : Bytes} (hstream : ws.stream = wires.flatMap WireFrame.encode ++ rest) (backoff : Nat)
    {turns : List Turn} (hturns : turns.length = 3 * wires.length) :
    ∃ bot' ws' receivedData',
      (Process.runs ⟨bot.beginSession, backoff, .checking ws false⟩ (turns.map .turn)).1 =
        ⟨bot', backoff, .checking ws' receivedData'⟩ ∧
      ws'.stream = rest ∧ (∀ b (p : BookPrice), bot'.book.level b p.val = (depth b p).val) ∧
      (∀ p : BookPrice, bot'.book.bestYesBid = some (p.val : Int) ↔ IsGreatest (Depth.bids depth true) p) ∧
      ∀ p : BookPrice, bot'.book.bestYesAsk = some (kMaxPrice - p.val : Int) ↔ IsGreatest (Depth.bids depth false) p := by
  have hstart : Mirrored sid none bot.beginSession := ⟨rfl, MarketState.wf_run []⟩
  have hbegin : bot.beginSession.running = true := hrunning
  obtain ⟨bot', ws', receivedData', hmirrored, hleft, hruns⟩ :=
    Process.runs_feed hfeed backoff false hbegin hstart hstream hturns
  obtain ⟨-, -, hmirrors⟩ := hmirrored
  exact ⟨bot', ws', receivedData', hruns, hleft, hmirrors.level, hmirrors.bestYesBid_iff, hmirrors.bestYesAsk_iff⟩

/-- A message of the first subscription, in JSON. -/
def messageJson (type seq : Bytes) (msg : Json.JsonObject) : Json.JsonObject :=
  [(ascii "msg", .object msg), (ascii "seq", .string seq), (ascii "sid", .string (ofNat 1)), (ascii "type", .string type)]

theorem length_le_kMaxFramePayload {n : Nat} (h : n < 2 ^ 16) : n ≤ kMaxFramePayload :=
  Nat.le_trans (Nat.le_of_lt h) (by decide)

theorem text_not_control {P : Prop} (h : 0x8 ≤ Opcode.text.toByte) : P := absurd h (by decide)

/-- A text frame with a JSON object. -/
def jsonWire (root : Json.JsonObject) (h : (Json.toJsonString (.object root)).length < 2 ^ 16) : WireFrame where
  fin := true
  opcode := .text
  form := .medium
  key := none
  data := Json.toJsonString (.object root)
  fits := h
  limit := length_le_kMaxFramePayload h
  control := text_not_control

/-- A snapshot with three contracts at $0.50. -/
def bidSnapshot : OrderBookSnapshot := ⟨ascii "T", ascii "M", [(ascii "0.5", ascii "3")], []⟩

/-- The snapshot in JSON. -/
def bidSnapshotJson : Json.JsonObject :=
  [(ascii "market_id", .string (ascii "M")), (ascii "market_ticker", .string (ascii "T")),
    (ascii "yes_dollars_fp", .array [levelJson (ascii "0.5", ascii "3")])]

/-- A delta by which one of them is gone. -/
def bidDelta : OrderBookDelta := ⟨ascii "T", ascii "M", ascii "0.5", ascii "-1.00", ascii "yes", ascii "0", 0⟩

/-- The delta in JSON. -/
def bidDeltaJson : Json.JsonObject :=
  [(ascii "delta_fp", .string (ascii "-1.00")), (ascii "market_id", .string (ascii "M")),
    (ascii "market_ticker", .string (ascii "T")), (ascii "price_dollars", .string (ascii "0.5")),
    (ascii "side", .string (ascii "yes")), (ascii "ts", .string (ascii "0")), (ascii "ts_ms", .string (ofNat 0))]

/-- YES bids at $0.50 only. -/
def bidsAtHalf (q : Volume) : Depth := fun isYes p ↦ if isYes = true ∧ p.val = 500 then q else ⟨0, Nat.zero_le _⟩

theorem denotes_half : Denotes kPriceDecimals (ascii "0.5") 500 :=
  (parseFixed_eq_some_iff.mp (by decide : parseFixed kPriceDecimals (ascii "0.5") = some 500)).1

theorem enumerates_bidSnapshot (h : 300 ≤ I64.max) (b : Bool) :
    Enumerates (listed bidSnapshot b) (bidsAtHalf ⟨300, h⟩ b) := by
  have hthree : Denotes 2 (ascii "3") 300 := (parseFixed_eq_some_iff.mp (by decide : parseFixed 2 (ascii "3") = some 300)).1
  cases b with
  | false => exact ⟨fun e he ↦ absurd he List.not_mem_nil, fun p hp ↦ absurd rfl hp⟩
  | true =>
      refine ⟨fun e he ↦ ?_, fun p hp ↦ ⟨(ascii "0.5", ascii "3"), List.mem_singleton_self _, ?_⟩⟩
      · obtain rfl := List.mem_singleton.mp he
        exact ⟨⟨500, by decide⟩, denotes_half, hthree⟩
      · by_cases hhalf : p.val = 500
        · rw [hhalf]
          exact denotes_half
        · have hzero : (bidsAtHalf ⟨300, h⟩ true p).val = 0 := by
            rw [bidsAtHalf, if_neg fun hp ↦ hhalf hp.2]
          exact absurd hzero hp

theorem changes_bidDelta (h : 300 ≤ I64.max) (h' : 200 ≤ I64.max) :
    Changes bidDelta (bidsAtHalf ⟨300, h⟩) (bidsAtHalf ⟨200, h'⟩) := by
  refine ⟨true, ⟨500, by decide⟩, -100, rfl, denotes_half,
    (parseFixed_eq_some_iff.mp (by decide : parseFixed 2 (ascii "-1.00") = some (-100))).1, fun b p ↦ ?_⟩
  have hiff : (b = true ∧ p = (⟨500, by decide⟩ : BookPrice)) ↔ b = true ∧ p.val = 500 := by
    rw [Subtype.ext_iff]
  rw [bidsAtHalf, bidsAtHalf]
  by_cases hhere : b = true ∧ p.val = 500
  · rw [if_pos hhere, if_pos hhere, if_pos (hiff.mpr hhere)]
    rfl
  · rw [if_neg hhere, if_neg hhere, if_neg fun hp ↦ hhere (hiff.mp hp)]
    rfl

/-- The message with the snapshot. -/
def bidSnapshotMessage : Json.JsonObject := messageJson (ascii "orderbook_snapshot") (ofNat 1) bidSnapshotJson

/-- The message with the delta. -/
def bidDeltaMessage : Json.JsonObject := messageJson (ascii "orderbook_delta") (ofNat 2) bidDeltaJson

theorem sorted_bidSnapshot : (Json.JsonValue.object bidSnapshotMessage).Sorted := by
  have hroot : FlatMap.Sorted bidSnapshotMessage := by rw [FlatMap.Sorted]; decide
  have hmsg : FlatMap.Sorted bidSnapshotJson := by rw [FlatMap.Sorted]; decide
  exact ⟨hroot, ⟨hmsg, trivial, trivial, ⟨⟨trivial, trivial, trivial⟩, trivial⟩, trivial⟩, trivial, trivial, trivial, trivial⟩

theorem sorted_bidDelta : (Json.JsonValue.object bidDeltaMessage).Sorted := by
  have hroot : FlatMap.Sorted bidDeltaMessage := by rw [FlatMap.Sorted]; decide
  have hmsg : FlatMap.Sorted bidDeltaJson := by rw [FlatMap.Sorted]; decide
  exact ⟨hroot, ⟨hmsg, trivial, trivial, trivial, trivial, trivial, trivial, trivial, trivial⟩, trivial, trivial, trivial,
    trivial⟩

theorem writes_bidSnapshot :
    Writes (Json.toJsonString (.object bidSnapshotMessage)) 1 1 (.snapshot bidSnapshot) bidSnapshotMessage
      bidSnapshotJson where
  json := (Json.parseJson_toJsonString sorted_bidSnapshot).1 (by decide)
  type := rfl
  sid := rfl
  seq := rfl
  inner := rfl
  tells := .snapshot rfl rfl (.inl rfl) (.inr ⟨rfl, rfl⟩)

theorem writes_bidDelta :
    Writes (Json.toJsonString (.object bidDeltaMessage)) 1 2 (.delta bidDelta) bidDeltaMessage bidDeltaJson where
  json := (Json.parseJson_toJsonString sorted_bidDelta).1 (by decide)
  type := rfl
  sid := rfl
  seq := rfl
  inner := rfl
  tells := .delta rfl rfl rfl rfl rfl rfl rfl

theorem length_bidSnapshot : (Json.toJsonString (.object bidSnapshotMessage)).length < 2 ^ 16 := by decide +kernel

theorem length_bidDelta : (Json.toJsonString (.object bidDeltaMessage)).length < 2 ^ 16 := by decide +kernel

/-- The two frames. -/
def bidWires : List WireFrame :=
  [jsonWire bidSnapshotMessage length_bidSnapshot, jsonWire bidDeltaMessage length_bidDelta]

theorem feed_bidWires (h : 200 ≤ I64.max) :
    Feed 1 none (bidWires.map WireFrame.frame) (some (2, bidsAtHalf ⟨200, h⟩)) := by
  have hthree : 300 ≤ I64.max := by decide
  have hsnapshot : Announces 1 (jsonWire bidSnapshotMessage length_bidSnapshot).frame none
      (some (1, bidsAtHalf ⟨300, hthree⟩)) :=
    .snapshot rfl writes_bidSnapshot (by decide) (enumerates_bidSnapshot hthree)
  have hdelta : Announces 1 (jsonWire bidDeltaMessage length_bidDelta).frame (some (1, bidsAtHalf ⟨300, hthree⟩))
      (some (1 + 1, bidsAtHalf ⟨200, h⟩)) :=
    .delta rfl writes_bidDelta (by decide) (changes_bidDelta hthree h)
  exact .cons hsnapshot (.cons hdelta (.nil _))

/-- Two of three contracts are left at $0.50: the snapshot and the delta arrive in one piece, and after six steps that
is the book. -/
theorem book_mirrors_exchange_bids :
    ∃ bot' ws' receivedData',
      (Process.runs ⟨(eagerBot 5 2).beginSession, 1,
        .checking ⟨[], [bidWires.flatMap WireFrame.encode], "receive timed out"⟩ false⟩
        ((List.replicate 6 ({} : Turn)).map .turn)).1 = ⟨bot', 1, .checking ws' receivedData'⟩ ∧
      bot'.book.level true 500 = 200 ∧ bot'.book.level false 500 = 0 := by
  have hstream : Socket.stream ⟨[], [bidWires.flatMap WireFrame.encode], "receive timed out"⟩ =
      bidWires.flatMap WireFrame.encode ++ [] := by
    rw [Socket.stream, List.flatten_singleton, List.nil_append, List.append_nil]
  obtain ⟨bot', ws', receivedData', hruns, -, hlevel, -⟩ :=
    book_mirrors_exchange (eagerBot 5 2) rfl (feed_bidWires (by decide)) hstream 1
      (List.length_replicate : (List.replicate 6 ({} : Turn)).length = 6)
  exact ⟨bot', ws', receivedData', hruns, hlevel true ⟨500, by decide⟩, hlevel false ⟨500, by decide⟩⟩

end KalshiClient.Trading
