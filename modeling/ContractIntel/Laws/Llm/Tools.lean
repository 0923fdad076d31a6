import ContractIntel.Llm.Tools
import Mathlib.Data.List.Forall2
import Mathlib.Algebra.BigOperators.Group.List.Basic

/-!
# The conversation a tool loop holds

A run of the loop is a list of rounds: a model call, and the handlers that ran for the calls its
reply requested. Whatever the model replies and the handlers come to, the rounds are a
conversation: each request is the previous one with the assistant's message and one answer for each
of its calls, and no handler runs that the reply at hand did not ask for.
-/

namespace ContractIntel.Llm

open Lib (Every)

variable {V : Type}

/-- An operation of a loop's trace. -/
abbrev ToolEntry (V : Type) := Lib.Entry (ToolOp V) ToolOp.Res ToolExn (ToolAnswer V)

/-- A handler that ran. -/
structure HandlerRun (V : Type) where
  tool : LlmTool V
  arguments : V
  answer : ToolAnswer V

def HandlerRun.entry (run : HandlerRun V) : ToolEntry V :=
  ⟨.handle run.tool run.arguments, run.answer, run.answer.outcome⟩

/-- A model call, and the handlers that ran before the next one. -/
structure Round (V : Type) where
  request : List (Message V)
  answer : ToolAnswer V
  handled : List (HandlerRun V)

namespace Round

def entries (llm : OpenAiClient) (tools : List (LlmTool V)) (r : Round V) : List (ToolEntry V) :=
  ⟨.create llm.model r.request (wireTools tools), r.answer, r.answer.reply⟩ ::
    r.handled.map HandlerRun.entry

/-- The message of the first choice, if the call came back with one. -/
def message? (r : Round V) : Option (ReplyMessage V) :=
  r.answer.reply.toOption.bind fun reply => reply.choices.head?

/-- The calls the round requests. -/
def requested (r : Round V) : List ToolCall :=
  (r.message?.map ReplyMessage.toolCalls).getD []

def usage? (r : Round V) : Option TokenUsage :=
  r.answer.reply.toOption.bind ToolReply.usage

end Round

variable [JsonModule V]

/-- The handler that may run for a call: that of a tool registered under the call's name, on the
arguments of the call. -/
structure Serves (tools : List (LlmTool V)) (run : HandlerRun V) (call : ToolCall) : Prop where
  registered : run.tool ∈ tools
  name_eq : run.tool.name = call.name
  isFunction : call.type = "function".toList
  loaded : loadArguments call.arguments = .ok run.arguments

/-- The tool message for a call carries the call's id and what its handler returned. -/
def Answers (served : ToolCall × HandlerRun V) (message : Message V) : Prop :=
  ∃ value content, served.2.answer.outcome = .ok value ∧ JsonModule.dumps value = .ok content ∧
    message = .tool served.1.id content

/-- The request after a round: every requested call was served, and the request has grown by the
assistant's message and one answer for each call, in the order of the calls. -/
structure Round.FollowedBy (r : Round V) (request : List (Message V)) : Prop where
  served : r.handled.length = r.requested.length
  extended : ∃ message answers, r.message? = some message ∧ message.toolCalls ≠ [] ∧
    request = r.request ++ .assistant message :: answers ∧
    List.Forall₂ Answers (message.toolCalls.zip r.handled) answers

/-- What the rounds of a loop are that starts with the messages `opening` and the counts `spent`,
has `bound` rounds to go and ends as `res` says. -/
structure Conversation (tools : List (LlmTool V)) (opening : List (Message V)) (bound : Nat)
    (spent : TokenUsage) (rounds : List (Round V)) (res : Except ToolExn LlmResult) : Prop where
  bounded : rounds.length ≤ bound
  opened : ∀ r ∈ rounds.head?, r.request = opening
  served : ∀ r ∈ rounds,
    List.Forall₂ (Serves tools) r.handled (r.requested.take r.handled.length)
  extended : rounds.IsChain fun r next => r.FollowedBy next.request
  returned : ∀ result, res = .ok result → ∃ before last message, rounds = before ++ [last] ∧
    (∀ r ∈ before, r.requested ≠ []) ∧ last.message? = some message ∧ message.toolCalls = [] ∧
    result.text = message.content.getD [] ∧
    result.promptTokens = spent.promptTokens +
      ((rounds.filterMap Round.usage?).map TokenUsage.promptTokens).sum ∧
    result.completionTokens = spent.completionTokens +
      ((rounds.filterMap Round.usage?).map TokenUsage.completionTokens).sum

/-! ## The calls of one round -/

section Calls

variable {tools : List (LlmTool V)} {llm : OpenAiClient} {env : Unit → Unit → Prop} {l s : Unit}

omit [JsonModule V] in
/-- A tool that is found by name is registered under that name. -/
theorem registered_of_get? {name : Str} {tool : LlmTool V}
    (h : Lib.Dict.get? (Lib.Dict.ofPairs (tools.map fun tool => (tool.name, tool))) name =
      some tool) : tool ∈ tools ∧ tool.name = name := by
  obtain ⟨binding, hfind, rfl⟩ := Option.map_eq_some_iff.mp h
  have hmem := Lib.Dict.ofPairs_subset _ (List.mem_of_find?_eq_some hfind)
  obtain ⟨registered, hregistered, rfl⟩ := List.mem_map.mp hmem
  exact ⟨hregistered, by simpa using List.find?_some hfind⟩

/-- A call that is not served ends the loop; one that is served has one handler run for it, and if
the loop goes on, the message that answers it. -/
theorem answerCall_run (call : ToolCall) :
    Every toolExec env
      (answerCall llm (Lib.Dict.ofPairs (tools.map fun tool => (tool.name, tool))) call) l s
      fun trace res _ _ => (trace = [] ∧ ∀ message, res ≠ .ok message) ∨
        ∃ run, trace = [run.entry] ∧ Serves tools run call ∧
          ∀ message, res = .ok message → Answers (call, run) message := by
  unfold answerCall
  split
  · exact .inl ⟨rfl, fun _ h => by cases h⟩
  next htype =>
    split
    · exact .inl ⟨rfl, fun _ h => by cases h⟩
    next tool hfind =>
      obtain ⟨hregistered, hname⟩ := registered_of_get? hfind
      refine Every.bind.mpr (Every.ofResult.mpr ?_)
      cases hload : (loadArguments call.arguments : Except ToolExn V) with
      | error e => exact .inl ⟨rfl, fun _ h => by cases h⟩
      | ok arguments =>
        refine Every.bind.mpr (Every.ofResult.mpr ?_)
        cases hredact : redact arguments with
        | error e => exact .inl ⟨rfl, fun _ h => by cases h⟩
        | ok _ =>
          refine Every.bind.mpr (Every.tryCatch.mpr (Every.call.mpr fun moved a _ => ?_))
          have hserves : Serves tools ⟨tool, arguments, a⟩ call :=
            ⟨hregistered, hname, not_not.mp htype, hload⟩
          dsimp only [toolExec]
          cases houtcome : a.outcome with
          | error e =>
            refine .inr ⟨_, ?_, hserves, fun _ h => by cases h⟩
            rw [HandlerRun.entry, houtcome]
            rfl
          | ok value =>
            refine Every.bind.mpr (Every.ofResult.mpr ?_)
            cases hdumps : JsonModule.dumps value with
            | error e =>
              refine .inr ⟨_, ?_, hserves, fun _ h => by cases h⟩
              rw [HandlerRun.entry, houtcome]
              rfl
            | ok content =>
              refine .inr ⟨_, ?_, hserves, fun message h => ?_⟩
              · rw [HandlerRun.entry, houtcome]
                rfl
              · cases h
                exact ⟨value, content, houtcome, hdumps, rfl⟩

/-- The handlers that run are those of the first calls, in order; the loop goes on only when every
call was answered. -/
theorem answerCalls_run (calls : List ToolCall) (messages : List (Message V)) :
    Every toolExec env
      (answerCalls llm (Lib.Dict.ofPairs (tools.map fun tool => (tool.name, tool))) calls messages)
      l s fun trace res _ _ =>
        ∃ handled : List (HandlerRun V), trace = handled.map HandlerRun.entry ∧
          List.Forall₂ (Serves tools) handled (calls.take handled.length) ∧
          ∀ extended, res = .ok extended → handled.length = calls.length ∧
            ∃ answers, extended = messages ++ answers ∧
              List.Forall₂ Answers (calls.zip handled) answers := by
  induction calls generalizing messages l s with
  | nil =>
    refine ⟨[], rfl, .nil, fun extended h => ?_⟩
    cases h
    exact ⟨rfl, [], (List.append_nil _).symm, .nil⟩
  | cons call calls ih =>
    refine Every.bind.mpr ((answerCall_run call).mono ?_)
    rintro trace res l' t (⟨rfl, hres⟩ | ⟨run, rfl, hserves, hanswers⟩)
    · cases res with
      | error e => exact ⟨[], rfl, .nil, fun _ h => by cases h⟩
      | ok message => exact absurd rfl (hres message)
    · cases res with
      | error e => exact ⟨[run], rfl, .cons hserves .nil, fun _ h => by cases h⟩
      | ok message =>
        refine (ih _).mono ?_
        rintro more res _ _ ⟨handled, rfl, hserved, hrest⟩
        refine ⟨run :: handled, rfl, .cons hserves hserved, fun extended h => ?_⟩
        obtain ⟨hlength, answers, rfl, hall⟩ := hrest extended h
        refine ⟨congrArg (· + 1) hlength, message :: answers, ?_, .cons (hanswers _ rfl) hall⟩
        rw [List.append_assoc]
        rfl

end Calls

/-! ## The rounds of a loop -/

namespace Conversation

variable {tools : List (LlmTool V)} {opening : List (Message V)} {bound : Nat}
  {spent spent' : TokenUsage} {r : Round V} {rounds : List (Round V)}
  {res : Except ToolExn LlmResult}

/-- A loop may end in an exception before its first round or in it. -/
theorem of_error (e : ToolExn) : Conversation tools opening bound spent [] (.error e) where
  bounded := Nat.zero_le _
  opened := fun _ h => by cases h
  served := fun _ h => absurd h List.not_mem_nil
  extended := .nil
  returned := fun _ h => by cases h

theorem single_of_error (e : ToolExn) (hopened : r.request = opening)
    (hserved : List.Forall₂ (Serves tools) r.handled (r.requested.take r.handled.length)) :
    Conversation tools opening (bound + 1) spent [r] (.error e) where
  bounded := Nat.succ_le_succ (Nat.zero_le _)
  opened := fun _ h => by cases h; exact hopened
  served := fun _ h => by rw [List.mem_singleton.mp h]; exact hserved
  extended := .singleton _
  returned := fun _ h => by cases h

/-- The round that ends the loop with an answer. -/
theorem single_of_ok {result : LlmResult} {message : ReplyMessage V} (hopened : r.request = opening)
    (hhandled : r.handled = []) (hmessage : r.message? = some message)
    (hcalls : message.toolCalls = []) (htext : result.text = message.content.getD [])
    (hprompt : result.promptTokens =
      spent.promptTokens + (r.usage?.map TokenUsage.promptTokens).getD 0)
    (hcompletion : result.completionTokens =
      spent.completionTokens + (r.usage?.map TokenUsage.completionTokens).getD 0) :
    Conversation tools opening (bound + 1) spent [r] (.ok result) where
  bounded := Nat.succ_le_succ (Nat.zero_le _)
  opened := fun _ h => by cases h; exact hopened
  served := fun _ h => by
    rw [List.mem_singleton.mp h, hhandled]
    exact .nil
  extended := .singleton _
  returned := fun _ h => by
    cases h
    refine ⟨[], r, message, rfl, List.forall_mem_nil _, hmessage, hcalls, htext, ?_, ?_⟩
    · rw [hprompt, List.filterMap_cons]
      cases r.usage? <;> rfl
    · rw [hcompletion, List.filterMap_cons]
      cases r.usage? <;> rfl

/-- A round that the loop goes on after, in front of the conversation that follows. -/
theorem cons (hserved : List.Forall₂ (Serves tools) r.handled (r.requested.take r.handled.length))
    (hfollowed : r.FollowedBy opening)
    (hprompt : spent'.promptTokens =
      spent.promptTokens + (r.usage?.map TokenUsage.promptTokens).getD 0)
    (hcompletion : spent'.completionTokens =
      spent.completionTokens + (r.usage?.map TokenUsage.completionTokens).getD 0)
    (h : Conversation tools opening bound spent' rounds res) :
    Conversation tools r.request (bound + 1) spent (r :: rounds) res where
  bounded := Nat.succ_le_succ h.bounded
  opened := fun _ hr => by cases hr; rfl
  served := List.forall_mem_cons.mpr ⟨hserved, h.served⟩
  extended := by
    cases rounds with
    | nil => exact .singleton r
    | cons next rounds =>
      refine List.isChain_cons_cons.mpr ⟨?_, h.extended⟩
      rw [h.opened next rfl]
      exact hfollowed
  returned := fun result hres => by
    obtain ⟨before, last, message, rfl, hbefore, hmessage, hcalls, htext, hp, hc⟩ :=
      h.returned result hres
    refine ⟨r :: before, last, message, rfl, ?_, hmessage, hcalls, htext, ?_, ?_⟩
    · refine List.forall_mem_cons.mpr ⟨?_, hbefore⟩
      obtain ⟨asked, -, hasked, hne, -⟩ := hfollowed.extended
      rwa [Round.requested, hasked]
    · rw [hp, hprompt, List.filterMap_cons]
      cases r.usage? with
      | none => rfl
      | some usage => exact Nat.add_assoc ..
    · rw [hc, hcompletion, List.filterMap_cons]
      cases r.usage? with
      | none => rfl
      | some usage => exact Nat.add_assoc ..

end Conversation

section Rounds

variable {tools : List (LlmTool V)} {llm : OpenAiClient} {env : Unit → Unit → Prop} {l s : Unit}

omit [JsonModule V] in
theorem finalAnswer_eq_ok {model : Str} {content : Option Str} {p c latencyMs : Nat}
    {result : LlmResult} (h : finalAnswer model content p c latencyMs = .ok result) :
    result.text = content.getD [] ∧ result.promptTokens = p ∧ result.completionTokens = c := by
  unfold finalAnswer usageRecord at h
  cases hcost : costUsd model p c with
  | error e =>
    rw [hcost] at h
    cases h
  | ok cost =>
    rw [hcost] at h
    cases h
    exact ⟨rfl, rfl, rfl⟩

theorem toolRounds_run (maxRounds : Int) (bound : Nat) (messages : List (Message V))
    (promptTokens completionTokens : Nat) :
    Every toolExec env (toolRounds llm tools maxRounds bound messages promptTokens completionTokens)
      l s fun trace res _ _ =>
        ∃ rounds : List (Round V), trace = rounds.flatMap (Round.entries llm tools) ∧
          Conversation tools messages bound ⟨promptTokens, completionTokens⟩ rounds res := by
  induction bound generalizing messages promptTokens completionTokens l s with
  | zero => exact ⟨[], rfl, .of_error _⟩
  | succ bound ih =>
    refine Every.bind.mpr (Every.tryCatch.mpr (Every.call.mpr fun moved a _ => ?_))
    dsimp only [toolExec]
    cases hreply : a.reply with
    | error e =>
      refine ⟨[⟨messages, a, []⟩], ?_, .single_of_error _ rfl .nil⟩
      simp [Round.entries, hreply]
    | ok response =>
      dsimp only
      cases hchoices : response.choices with
      | nil =>
        refine ⟨[⟨messages, a, []⟩], ?_, .single_of_error _ rfl .nil⟩
        simp [Round.entries, hreply]
      | cons message others =>
        dsimp only
        -- whatever handlers the round runs, its message and its usage are those of the reply
        have hmessage (handled : List (HandlerRun V)) :
            (⟨messages, a, handled⟩ : Round V).message? = some message := by
          simp [Round.message?, hreply, hchoices, Except.toOption]
        have husage (handled : List (HandlerRun V)) :
            (⟨messages, a, handled⟩ : Round V).usage? = response.usage := by
          simp [Round.usage?, hreply, Except.toOption]
        split
        next hcalls =>
          refine Every.ofResult.mpr ⟨[⟨messages, a, []⟩], ?_, ?_⟩
          · simp [Round.entries, hreply]
          · cases hfinal : finalAnswer llm.model message.content _ _ response.latencyMs with
            | error e => exact .single_of_error _ rfl .nil
            | ok result =>
              obtain ⟨htext, hp, hc⟩ := finalAnswer_eq_ok hfinal
              refine .single_of_ok rfl rfl (hmessage []) (List.isEmpty_iff.mp hcalls) htext ?_ ?_
              · rw [husage, hp]
              · rw [husage, hc]
        next hcalls =>
          refine Every.bind.mpr ((answerCalls_run message.toolCalls _).mono ?_)
          rintro trace res l' t ⟨handled, rfl, hserved, hrest⟩
          have hrequested :
              (⟨messages, a, handled⟩ : Round V).requested = message.toolCalls := by
            rw [Round.requested, hmessage]
            rfl
          rw [← hrequested] at hserved
          cases res with
          | error e =>
            refine ⟨[⟨messages, a, handled⟩], ?_, .single_of_error _ rfl hserved⟩
            simp [Round.entries, hreply]
          | ok extended =>
            obtain ⟨hlength, answers, rfl, hanswers⟩ := hrest extended rfl
            refine (ih _ _ _).mono ?_
            rintro more res _ _ ⟨rounds, rfl, hrounds⟩
            have hfollowed : (⟨messages, a, handled⟩ : Round V).FollowedBy
                (messages ++ [.assistant message] ++ answers) := by
              refine ⟨hrequested ▸ hlength, message, answers, hmessage handled, ?_, ?_, hanswers⟩
              · exact fun h => hcalls (List.isEmpty_iff.mpr h)
              · rw [List.append_assoc]
                rfl
            refine ⟨⟨messages, a, handled⟩ :: rounds, ?_, ?_⟩
            · simp [Round.entries, hreply]
            · refine Conversation.cons (r := ⟨messages, a, handled⟩) hserved hfollowed ?_ ?_ hrounds
              · rw [husage]
              · rw [husage]

/-- In every run of the tool loop, whatever the model replies and the handlers come to, the
operations are those of at most `maxRounds` rounds that are a conversation from the two opening
messages on: only handlers of registered tools run, for the requested calls and in their order, each
request is the one before with the assistant's message and an answer for each of its calls, and what
is returned is the first answer without calls, with the usage of all rounds. -/
theorem tool_loop_is_conversation (llm : OpenAiClient) (system user : Str)
    (tools : List (LlmTool V)) (maxRounds : Int) :
    Every toolExec env (completeWithTools llm system user tools maxRounds) l s
      fun trace res _ _ =>
        ∃ rounds : List (Round V), trace = rounds.flatMap (Round.entries llm tools) ∧
          Conversation tools [.system system, .user user] maxRounds.toNat ⟨0, 0⟩ rounds res :=
  toolRounds_run maxRounds _ _ 0 0

end Rounds

/-- A call, its handler and the answer: the usage of both rounds is summed. -/
example :
    letI : JsonModule Str := ⟨.ok, .ok⟩
    let call : ToolCall := ⟨['1'], "function".toList, "get_balance".toList, []⟩
    let balance : LlmTool Str := ⟨"get_balance".toList, [], []⟩
    let answer (usage : TokenUsage) (message : ReplyMessage Str) (value : Str) : ToolAnswer Str :=
      ⟨.ok ⟨some usage, [message], 0⟩, .ok value⟩
    (Lib.replay toolExec (completeWithTools ⟨"gpt-4o-mini".toList, []⟩ [] [] [balance] 3) () ()
      [answer ⟨10, 5⟩ ⟨none, [call], []⟩ [], answer ⟨0, 0⟩ ⟨none, [], []⟩ "42".toList,
        answer ⟨20, 8⟩ ⟨some "done".toList, [], []⟩ []]).bind (fun run => run.2.1.toOption.map
          fun result => (result.text, result.promptTokens, result.completionTokens)) =
      some ("done".toList, 30, 13) :=
  rfl

end ContractIntel.Llm
