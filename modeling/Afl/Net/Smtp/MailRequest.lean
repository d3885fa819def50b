import Afl.Base.Bytes
import Afl.Lib.Machine

/-!
# Sending mail

`afl/net/smtp/mailrequest.cpp`. The state `From_2` stands for the reply to MAIL FROM and to all but the last RCPT TO.
`Dialogue` is the transaction as a list of steps, each with the digit of the reply it waits for and the lines it sends;
the handler is compared with it line by line.
-/

namespace Afl.Net.Smtp

structure Configuration where
  hello : Bytes
  sender : Bytes

inductive State
  | greeting_2
  | hello_2
  | from_2
  | recipient_2
  | data_3
  | content_2
  | quit_2
deriving DecidableEq

structure MailRequest where
  m_config : Configuration
  m_content : Bytes
  m_to : List Bytes
  m_state : State

/-- What comes of a line: the lines that are sent and whether the handler is finished, an exception, or a read past the
end of the recipient list. -/
inductive Result
  | sends (lines : List Bytes) (finish : Bool)
  | throws (what : Bytes)
  | readsPastEnd
deriving DecidableEq

def trimContent (content : Bytes) : Bytes :=
  if content.getLast? = some 10 then
    let content := content.dropLast
    if content.getLast? = some 13 then content.dropLast else content
  else content

/-- A line that looks like the final line of a reply. -/
def isFinalLine (line : Bytes) : Bool := 4 ≤ line.length && line.getD 3 0 ≠ 45

def rcptTo (recipient : Bytes) : Bytes := lit "RCPT TO:<" ++ recipient ++ lit ">"

namespace MailRequest

def create (config : Configuration) (recipients : List Bytes) (content : Bytes) : MailRequest :=
  ⟨config, trimContent content, recipients, .greeting_2⟩

/-- The digit that a reply has to begin with. -/
def expected : State → UInt8
  | .greeting_2 | .hello_2 | .from_2 | .recipient_2 | .content_2 | .quit_2 => 50
  | .data_3 => 51

def sendNext (r : MailRequest) : Result × MailRequest :=
  match r.m_state with
  | .greeting_2 =>
    if r.m_to = [] then (.sends [lit "QUIT"] false, { r with m_state := .quit_2 })
    else (.sends [lit "HELO " ++ r.m_config.hello] false, { r with m_state := .hello_2 })
  | .hello_2 =>
    (.sends [lit "MAIL FROM:<" ++ r.m_config.sender ++ lit ">"] false, { r with m_state := .from_2 })
  | .from_2 =>
    match r.m_to with
    | [] => (.readsPastEnd, r)
    | recipient :: rest =>
      (.sends [rcptTo recipient] false,
        { r with m_to := rest, m_state := if rest = [] then .recipient_2 else .from_2 })
  | .recipient_2 => (.sends [lit "DATA"] false, { r with m_state := .data_3 })
  | .data_3 => (.sends [r.m_content, lit "."] false, { r with m_state := .content_2 })
  | .content_2 => (.sends [lit "QUIT"] false, { r with m_state := .quit_2 })
  | .quit_2 => (.sends [] true, r)

def handleLine (r : MailRequest) (line : Bytes) : Result × MailRequest :=
  if isFinalLine line = true then
    if line.getD 0 0 ≠ expected r.m_state then (.throws line, r) else r.sendNext
  else (.sends [] false, r)

end MailRequest

/-! ### The dialogue -/

/-- A step of the dialogue. -/
structure Step where
  expected : UInt8
  lines : List Bytes

namespace Dialogue

/-- The steps from the reply to the last RCPT TO on. -/
def ending (content : Bytes) : List Step := [⟨50, [lit "DATA"]⟩, ⟨51, [content, lit "."]⟩, ⟨50, [lit "QUIT"]⟩]

/-- The steps from the reply to MAIL FROM on. -/
def mailTo (recipients : List Bytes) (content : Bytes) : List Step :=
  recipients.map (fun recipient => ⟨50, [rcptTo recipient]⟩) ++ ending content

/-- The steps from the reply to HELO on. -/
def mailFrom (config : Configuration) (recipients : List Bytes) (content : Bytes) : List Step :=
  ⟨50, [lit "MAIL FROM:<" ++ config.sender ++ lit ">"]⟩ :: mailTo recipients content

/-- All steps: HELO, MAIL FROM, a RCPT TO for each recipient, DATA, the content and QUIT; or QUIT only. -/
def steps (config : Configuration) (recipients : List Bytes) (content : Bytes) : List Step :=
  if recipients = [] then [⟨50, [lit "QUIT"]⟩]
  else ⟨50, [lit "HELO " ++ config.hello]⟩ :: mailFrom config recipients content

/-- The answer to a final line: the next step if it has the expected digit, else an exception. Behind the last step, the
dialogue is finished. -/
def reply (line : Bytes) : List Step → Result × List Step
  | [] => (if line.getD 0 0 = 50 then .sends [] true else .throws line, [])
  | step :: rest =>
    if line.getD 0 0 = step.expected then (.sends step.lines false, rest) else (.throws line, step :: rest)

/-- Lines that are not final are not answered. -/
def answer (todo : List Step) (line : Bytes) : Result × List Step :=
  if isFinalLine line = true then reply line todo else (.sends [] false, todo)

/-- The steps that are left in a state. -/
def todo (r : MailRequest) : List Step :=
  match r.m_state with
  | .greeting_2 => steps r.m_config r.m_to r.m_content
  | .hello_2 => mailFrom r.m_config r.m_to r.m_content
  | .from_2 => mailTo r.m_to r.m_content
  | .recipient_2 => ending r.m_content
  | .data_3 => (ending r.m_content).drop 1
  | .content_2 => (ending r.m_content).drop 2
  | .quit_2 => []

/-- A handler with the steps that are left. There is a recipient while one is needed. -/
structure Follows (r : MailRequest) (steps : List Step) : Prop where
  todo_eq : todo r = steps
  recipient : r.m_state = .hello_2 ∨ r.m_state = .from_2 → r.m_to ≠ []

theorem follows_create (config : Configuration) (recipients : List Bytes) (content : Bytes) :
    Follows (.create config recipients content) (steps config recipients (trimContent content)) :=
  ⟨rfl, fun h => h.elim State.noConfusion State.noConfusion⟩

theorem Follows.sendNext {r : MailRequest} {steps : List Step} (h : Follows r steps) :
    (steps = [] ∧ MailRequest.expected r.m_state = 50 ∧ r.sendNext = (.sends [] true, r)) ∨
      ∃ step rest, steps = step :: rest ∧ MailRequest.expected r.m_state = step.expected ∧
        r.sendNext.1 = .sends step.lines false ∧ Follows r.sendNext.2 rest := by
  obtain ⟨rfl, hrecipient⟩ := h
  obtain ⟨config, content, recipients, state⟩ := r
  cases state with
  | greeting_2 =>
    refine .inr ?_
    by_cases hnone : recipients = []
    · subst hnone
      exact ⟨_, _, rfl, rfl, rfl, rfl, fun h => h.elim State.noConfusion State.noConfusion⟩
    · rw [todo, steps, if_neg hnone, MailRequest.sendNext]
      dsimp only
      rw [if_neg hnone]
      exact ⟨_, _, rfl, rfl, rfl, rfl, fun _ => hnone⟩
  | hello_2 => exact .inr ⟨_, _, rfl, rfl, rfl, rfl, fun _ => hrecipient (.inl rfl)⟩
  | from_2 =>
    refine .inr ?_
    cases recipients with
    | nil => exact absurd rfl (hrecipient (.inr rfl))
    | cons recipient rest =>
      refine ⟨_, _, rfl, rfl, rfl, ?_⟩
      -- the last recipient changes the state
      by_cases hlast : rest = []
      · subst hlast
        exact ⟨rfl, fun h => h.elim State.noConfusion State.noConfusion⟩
      · rw [MailRequest.sendNext]
        dsimp only
        rw [if_neg hlast]
        exact ⟨rfl, fun _ => hlast⟩
  | recipient_2 => exact .inr ⟨_, _, rfl, rfl, rfl, rfl, fun h => h.elim State.noConfusion State.noConfusion⟩
  | data_3 => exact .inr ⟨_, _, rfl, rfl, rfl, rfl, fun h => h.elim State.noConfusion State.noConfusion⟩
  | content_2 => exact .inr ⟨_, _, rfl, rfl, rfl, rfl, fun h => h.elim State.noConfusion State.noConfusion⟩
  | quit_2 => exact .inl ⟨rfl, rfl, rfl⟩

theorem Follows.handleLine {r : MailRequest} {steps : List Step} (h : Follows r steps) (line : Bytes) :
    (r.handleLine line).1 = (answer steps line).1 ∧ Follows (r.handleLine line).2 (answer steps line).2 := by
  rw [MailRequest.handleLine, answer]
  by_cases hfinal : isFinalLine line = true
  · rw [if_pos hfinal, if_pos hfinal]
    rcases h.sendNext with ⟨rfl, hexpected, hnext⟩ | ⟨step, rest, rfl, hexpected, hsent, hfollows⟩
    · rw [hexpected, hnext, reply]
      by_cases hdigit : line.getD 0 0 = 50
      · rw [if_neg (not_not.mpr hdigit), if_pos hdigit]
        exact ⟨rfl, h⟩
      · rw [if_pos hdigit, if_neg hdigit]
        exact ⟨rfl, h⟩
    · rw [hexpected, reply]
      by_cases hdigit : line.getD 0 0 = step.expected
      · rw [if_neg (not_not.mpr hdigit), if_pos hdigit]
        exact ⟨hsent, hfollows⟩
      · rw [if_pos hdigit, if_neg hdigit]
        exact ⟨rfl, h⟩
  · rw [if_neg hfinal, if_neg hfinal]
    exact ⟨rfl, h⟩

end Dialogue

/-! ### Whole dialogues -/

def Result.lines : Result → List Bytes
  | .sends lines _ => lines
  | .throws _ | .readsPastEnd => []

namespace Dialogue

theorem answer_cases (steps : List Step) (line : Bytes) :
    (answer steps line).1 ≠ .readsPastEnd ∧
      (answer steps line).1.lines ++ (answer steps line).2.flatMap Step.lines = steps.flatMap Step.lines := by
  rw [answer]
  split_ifs with hfinal
  · cases steps with
    | nil =>
      rw [reply]
      split_ifs <;> exact ⟨Result.noConfusion, rfl⟩
    | cons step rest =>
      rw [reply]
      split_ifs <;> exact ⟨Result.noConfusion, rfl⟩
  · exact ⟨Result.noConfusion, rfl⟩

theorem outputs_answer (steps : List Step) (lines : List Bytes) :
    .readsPastEnd ∉ Machine.outputs answer steps lines ∧
      (Machine.outputs answer steps lines).flatMap Result.lines <+: steps.flatMap Step.lines := by
  induction lines generalizing steps with
  | nil => exact ⟨List.not_mem_nil, List.nil_prefix⟩
  | cons line lines ih =>
    obtain ⟨hnone, hlines⟩ := answer_cases steps line
    obtain ⟨hrest, hinitial⟩ := ih (answer steps line).2
    rw [Machine.outputs, List.flatMap_cons, ← hlines, List.prefix_append_right_inj]
    exact ⟨fun hmem => (List.mem_cons.mp hmem).elim (fun heq => hnone heq.symm) hrest, hinitial⟩

end Dialogue

namespace MailRequest

/-- **The order of a mail transaction**: whatever lines arrive, each is answered with what the dialogue says. What is
sent is a beginning of the dialogue, and the recipient list is not read past its end. -/
theorem handleLine_dialogue (config : Configuration) (recipients : List Bytes) (content : Bytes) (lines : List Bytes) :
    Machine.outputs handleLine (create config recipients content) lines =
        Machine.outputs Dialogue.answer (Dialogue.steps config recipients (trimContent content)) lines ∧
      (Machine.outputs handleLine (create config recipients content) lines).flatMap Result.lines <+:
        (Dialogue.steps config recipients (trimContent content)).flatMap Step.lines ∧
      .readsPastEnd ∉ Machine.outputs handleLine (create config recipients content) lines := by
  have hsame := (Machine.outputs_eq (C := fun _ _ => True) (fun {_ _ line} h _ => h.handleLine line)
    (Dialogue.follows_create config recipients content) lines fun _ _ _ _ => trivial).1
  obtain ⟨hnone, hinitial⟩ := Dialogue.outputs_answer (Dialogue.steps config recipients (trimContent content)) lines
  exact ⟨hsame, hsame ▸ hinitial, hsame ▸ hnone⟩

end MailRequest

end Afl.Net.Smtp
