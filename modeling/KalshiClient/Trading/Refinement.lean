import KalshiClient.Trading.Process

/-!
# The process refines the machine of sessions and frames

The machine `Running` leaves out connections, bytes and signals.  Every run of the process is one of that machine
(`process_refines_running`), so what holds for all runs of the one holds for the other.
-/

namespace KalshiClient.Trading

open Bytes Protocol WebSocket

/-- The orders that can be seen in a log. -/
def Output.submission? : Output → Option Submission
  | .ordered sub => some sub
  | _ => none

theorem filterMap_submission_of_wrote {out : List Output} (h : ∀ o ∈ out, ∃ bytes ok, o = .wrote bytes ok) :
    out.filterMap Output.submission? = [] := by
  rw [List.filterMap_eq_nil_iff]
  intro o ho
  obtain ⟨bytes, ok, rfl⟩ := h o ho
  rfl

namespace Running

variable {E : EmaOps}

/-- A failure to receive ends the session. -/
theorem run_step_lost (bot : TradingBot E) (inSession : Bool) (e : Bytes) :
    Mealy.run step ⟨bot, inSession⟩ [.frame (.error e) {}] = (⟨bot, false⟩, []) := by
  cases inSession <;> rfl

end Running

/-- Whether a session is on or about to begin. -/
def Pc.isLive : Pc → Bool
  | .dialling | .checking _ _ | .receiving _ _ | .handling _ _ _ => true
  | _ => false

namespace Process

variable {E : EmaOps} {p : Process E} {r : Running E}

/-- The process does what the machine does, which may not have been told to stop yet. -/
structure Follows (p : Process E) (r : Running E) : Prop where
  started : p.pc ≠ .starting
  inSession : r.inSession = p.pc.inSession
  bot : r.bot = p.bot.withRunning r.bot.running
  running : p.bot.running = true → r.bot.running = true
  live : p.pc.isLive = true → r.bot.running = true

namespace Follows

/-- A step that neither handles a frame nor begins a session. -/
theorem stay (h : p.Follows r) {backoff : Nat} {pc : Pc} (hpc : pc ≠ .starting) (hin : pc.inSession = p.pc.inSession)
    (hlive : pc.isLive = true → r.bot.running = true) : (⟨p.bot, backoff, pc⟩ : Process E).Follows r :=
  ⟨hpc, h.inSession.trans hin.symm, h.bot, h.running, hlive⟩

/-- A step that leaves the session. -/
theorem leave (h : p.Follows r) {backoff : Nat} {pc : Pc} (hpc : pc ≠ .starting) (hin : pc.inSession = false)
    (hlive : pc.isLive = false) : (⟨p.bot, backoff, pc⟩ : Process E).Follows ⟨r.bot, false⟩ := by
  refine ⟨hpc, hin.symm, h.bot, h.running, fun hlive' ↦ ?_⟩
  rw [hlive] at hlive'
  cases hlive'

/-- The handling of a frame. -/
theorem handle {frame : WebSocketFrame} {ws : Socket} {receivedData : Bool} (h : p.Follows r)
    (hpc : p.pc = .handling frame ws receivedData) (t : Turn) :
    (Mealy.run Running.step r [.frame (.ok frame) t.env]).2 =
        (p.handle frame ws receivedData t).2.filterMap Output.submission? ∧
      (p.handle frame ws receivedData t).1.Follows (Mealy.run Running.step r [.frame (.ok frame) t.env]).1 := by
  have hin : r.inSession = true := by rw [h.inSession, hpc]; rfl
  have hrunning : r.bot.running = true := h.live (by rw [hpc]; rfl)
  obtain ⟨keep, hended, hframe⟩ := p.bot.onFrame_withRunning frame t.env
  have hown := hframe p.bot.running
  rw [TradingBot.withRunning_running] at hown
  have hhandled : r.handled (.ok frame) t.env =
      { p.bot.onFrame (.ok frame) t.env with
        bot := (p.bot.onFrame (.ok frame) t.env).bot.withRunning keep } := by
    rw [Running.handled, if_pos hin, h.bot, hframe, hrunning, Bool.true_and]
  have hnext : r.next (.frame (.ok frame) t.env) =
      ⟨(p.bot.onFrame (.ok frame) t.env).bot.withRunning keep,
        !(p.bot.onFrame (.ok frame) t.env).ended && keep⟩ := by
    rw [Running.next, hhandled, hin]
    rfl
  constructor
  · change (r.handled (.ok frame) t.env).submitted.toList ++ [] = List.filterMap _ (reply frame t ++ _)
    rw [hhandled, List.filterMap_append, filterMap_submission_of_wrote fun _ ↦ eq_wrote_of_mem_reply, List.append_nil]
    cases (p.bot.onFrame (.ok frame) t.env).submitted <;> rfl
  · change (p.handle frame ws receivedData t).1.Follows (r.next (.frame (.ok frame) t.env))
    have hkeep : (p.bot.onFrame (.ok frame) t.env).bot.running = (p.bot.running && keep) := by
      rw [hown]
      rfl
    rw [hnext, Process.handle]
    generalize p.bot.onFrame (.ok frame) t.env = handled at hended hkeep
    obtain ⟨bot, ended, data, consulted, submitted⟩ := handled
    dsimp only at hended hkeep ⊢
    have hrun : bot.running = true → keep = true := fun hbot ↦ (Bool.and_eq_true_iff.mp (hkeep ▸ hbot)).2
    cases ended with
    | true => exact ⟨Pc.noConfusion, rfl, rfl, hrun, fun hlive ↦ Bool.noConfusion hlive⟩
    | false =>
        have hkept : keep = true := by
          cases keep with
          | true => rfl
          | false => exact hended rfl
        exact ⟨Pc.noConfusion, hkept, rfl, hrun, fun _ ↦ hkept⟩

/-- **A step of the process** is at most one of the machine. -/
theorem advance (h : p.Follows r) (t : Turn) :
    ∃ inputs, (Mealy.run Running.step r inputs).2 = (p.advance t).2.filterMap Output.submission? ∧
      (p.advance t).1.Follows (Mealy.run Running.step r inputs).1 := by
  have hstarted := h.started
  obtain ⟨bot, backoff, pc⟩ := p
  cases pc with
  | starting => exact absurd rfl hstarted
  | looping =>
      refine ⟨[], rfl, ?_⟩
      rw [Process.advance]
      cases hrunning : bot.running with
      | true => exact h.stay Pc.noConfusion rfl fun _ ↦ h.running hrunning
      | false => exact h.stay Pc.noConfusion rfl fun hlive ↦ Bool.noConfusion hlive
  | dialling =>
      rw [Process.advance]
      rcases dial_cases ⟨bot, backoff, .dialling⟩ t with ⟨requests, sending, hdial⟩ | ⟨requests, ws, -, hdial⟩
      · refine ⟨[], ?_, ?_⟩
        · simp only [hdial]
          exact (filterMap_submission_of_wrote fun _ ↦ eq_wrote_of_mem).symm
        · simp only [hdial]
          exact h.stay Pc.noConfusion rfl fun hlive ↦ Bool.noConfusion hlive
      · have hrunning := h.live rfl
        have hsession : Mealy.run Running.step r [.session] = (⟨r.bot.beginSession, true⟩, []) := by
          change (r.next .session, []) = _
          rw [Running.next, if_pos hrunning]
        refine ⟨[.session], ?_, ?_⟩
        · simp only [hdial, hsession]
          exact (filterMap_submission_of_wrote fun _ ↦ eq_wrote_of_mem).symm
        · simp only [hdial, hsession]
          refine ⟨Pc.noConfusion, rfl, ?_, h.running, fun _ ↦ hrunning⟩
          exact congrArg TradingBot.beginSession h.bot
  | checking ws receivedData =>
      rw [Process.advance]
      cases bot.running with
      | true => exact ⟨[], rfl, h.stay Pc.noConfusion rfl fun _ ↦ h.live rfl⟩
      | false =>
          refine ⟨[.frame (.error []) {}], ?_, ?_⟩
          · rw [Running.run_step_lost]
            rfl
          · rw [Running.run_step_lost]
            exact h.leave Pc.noConfusion rfl rfl
  | receiving ws receivedData =>
      rw [Process.advance]
      dsimp only
      rcases receive_cases ⟨bot, backoff, .receiving ws receivedData⟩ ws receivedData with
        hreceive | ⟨frame, ws', hreceive⟩
      · refine ⟨[.frame (.error []) {}], ?_, ?_⟩
        · rw [Running.run_step_lost, hreceive]
          rfl
        · rw [Running.run_step_lost, hreceive]
          exact h.leave Pc.noConfusion rfl rfl
      · refine ⟨[], ?_, ?_⟩
        · rw [hreceive]
          rfl
        · rw [hreceive]
          exact h.stay Pc.noConfusion rfl fun _ ↦ h.live rfl
  | handling frame ws receivedData => exact ⟨_, h.handle rfl t⟩
  | returned receivedData =>
      refine ⟨[], rfl, ?_⟩
      rw [Process.advance]
      cases bot.running <;> exact h.stay Pc.noConfusion rfl fun hlive ↦ Bool.noConfusion hlive
  | waiting waited =>
      rw [Process.advance]
      dsimp only
      split_ifs <;> exact ⟨[], rfl, h.stay Pc.noConfusion rfl fun hlive ↦ Bool.noConfusion hlive⟩
  | finished => exact ⟨[], rfl, h⟩

theorem step (h : p.Follows r) (a : Act) :
    ∃ inputs, (Mealy.run Running.step r inputs).2 = (p.step a).2.filterMap Output.submission? ∧
      (p.step a).1.Follows (Mealy.run Running.step r inputs).1 := by
  cases a with
  | turn t => exact h.advance t
  | stop => exact ⟨[], rfl, h.started, h.inSession, h.bot, fun hrunning ↦ Bool.noConfusion hrunning, h.live⟩

end Follows

end Process

/-- **The process refines the machine of sessions and frames.**  Every run of the process after the connection for
orders has been opened, with any bytes arriving on any connections and a stop at any point, is a run of `Running`: it
submits the same orders, with the same answers, and ends with the same bot, except that the machine may not have been
told to stop. -/
theorem process_refines_running {E : EmaOps} (bot : TradingBot E) (acts : List Act) :
    ∃ inputs, (Mealy.run Running.step ⟨bot, false⟩ inputs).2 =
        (Process.runs { bot := bot, pc := .looping } acts).2.filterMap Output.submission? ∧
      (Process.runs { bot := bot, pc := .looping } acts).1.bot =
        (Mealy.run Running.step ⟨bot, false⟩ inputs).1.bot.withRunning
          (Process.runs { bot := bot, pc := .looping } acts).1.bot.running := by
  have hstart : Process.Follows { bot := bot, pc := .looping } ⟨bot, false⟩ :=
    ⟨Pc.noConfusion, rfl, rfl, fun h ↦ h, fun hlive ↦ Bool.noConfusion hlive⟩
  obtain ⟨inputs, hout, hlast⟩ := Mealy.run_refines (fun p r a h ↦ Process.Follows.step h a) hstart acts
  exact ⟨inputs, hout, by rw [hlast.bot]; rfl⟩

end KalshiClient.Trading
