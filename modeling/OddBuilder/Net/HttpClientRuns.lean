import OddBuilder.Net.HttpClient

/-!
# Answers of the HTTP client

Every exchange is answered at most once, and its bytes go out in order, in every run
in which no send fails early in the state Error, no exchange is stopped from inside
the body or the progress callback, and a failed `connectToHost` finds its exchange as
it left it. The exchange that the client is busy with has no answer yet; in the state
Error it has one, and `fail` is silent.
-/

namespace JobNet

open JobHttpClient List ClientRun Option Happening

namespace JobHttpClient

def Happening.isAnswer : Happening → Bool
  | .onError _ | .onResponse => true
  | _ => false

def answers (history : List Happening) : List Happening := history.filter Happening.isAnswer

/-- What the transport takes at this moment. -/
def Happening.bytes : Happening → Bytes
  | .gave bytes => bytes
  | _ => []

/-- All bytes that the transport took. -/
def given (history : List Happening) : Bytes := history.flatMap Happening.bytes

/-- What the caller and the transport may rely on. -/
structure Exchange.AnsweredOnce (e : Exchange) : Prop where
  refused : ∀ front back, e.history = front ++ .returned false :: back →
    (∃ text, text ≠ "" ∧ answers front = [.onError text]) ∧ answers back = []
  once : (answers e.history).length ≤ 1
  stopped : ∀ front back, e.history = front ++ .stopped :: back → answers back = []
  reported : .reported ∈ e.history → (answers e.history).length = 1
  prefixed : given e.history <+: e.data
  received : ∀ front back, e.history = front ++ .receiving :: back → given front = e.data

@[simp] theorem answers_concat (history : List Happening) (happening : Happening) :
    answers (history ++ [happening]) =
      answers history ++ if happening.isAnswer then [happening] else [] := by
  rw [answers, filter_append]
  cases happening <;> rfl

@[simp] theorem given_concat (history : List Happening) (happening : Happening) :
    given (history ++ [happening]) = given history ++ happening.bytes := by
  simp [given]

@[simp] theorem history_add (happening : Happening) (e : Exchange) :
    (e.add happening).history = e.history ++ [happening] := rfl

@[simp] theorem data_add (happening : Happening) (e : Exchange) :
    (e.add happening).data = e.data := rfl

/-- Where something happened: at the end, or before. -/
theorem concat_split {history front back : List Happening} {last happening : Happening}
    (h : history ++ [last] = front ++ happening :: back) :
    (back = [] ∧ front = history ∧ happening = last) ∨
      ∃ before, back = before ++ [last] ∧ history = front ++ happening :: before := by
  rcases eq_nil_or_concat back with rfl | ⟨before, final, rfl⟩
  · have heq := append_inj' h rfl
    exact Or.inl ⟨rfl, heq.1.symm, (singleton_inj.1 heq.2).symm⟩
  · have h' : history ++ [last] = (front ++ happening :: before) ++ [final] := by
      rw [h]
      simp
    have heq := append_inj' h' rfl
    refine Or.inr ⟨before, ?_, heq.1⟩
    rw [concat_eq_append, singleton_inj.1 heq.2]

/-- Neither answered nor stopped. -/
structure Exchange.Live (e : Exchange) : Prop where
  answers : answers e.history = []
  stopped : .stopped ∉ e.history

theorem Exchange.Live.add {e : Exchange} {happening : Happening} (h : e.Live)
    (hquiet : happening.isAnswer = false) (hstopped : happening ≠ .stopped) :
    (e.add happening).Live := by
  constructor
  · rw [history_add, answers_concat, h.answers, hquiet]
    rfl
  · rw [history_add, mem_append, mem_singleton]
    rintro (hmem | hlast)
    · exact h.stopped hmem
    · exact hstopped hlast.symm

namespace Exchange.AnsweredOnce

variable {e : Exchange} (h : e.AnsweredOnce)

theorem fresh (data : Bytes) : Exchange.AnsweredOnce ⟨data, []⟩ := by
  constructor
  · intro front back hsplit
    simp at hsplit
  · exact Nat.zero_le 1
  · intro front back hsplit
    simp at hsplit
  · intro hmem
    cases hmem
  · exact nil_prefix
  · intro front back hsplit
    simp at hsplit

include h

/-- An exchange that is not answered has not been refused. -/
theorem not_refused (hanswers : answers e.history = []) : .returned false ∉ e.history := by
  intro hmem
  obtain ⟨front, back, hsplit⟩ := append_of_mem hmem
  obtain ⟨⟨text, -, htext⟩⟩ := h.refused front back hsplit
  have hall : answers front ++ answers (.returned false :: back) = [] := by
    rw [answers, answers, ← filter_append, ← hsplit]
    exact hanswers
  rw [htext] at hall
  cases hall

/-- Something other than an answer happens. -/
theorem add_quiet {happening : Happening} (hquiet : happening.isAnswer = false)
    (hrefused : happening = .returned false →
      ∃ text, text ≠ "" ∧ answers e.history = [.onError text])
    (hreported : happening = .reported → (answers e.history).length = 1)
    (hprefixed : given e.history ++ happening.bytes <+: e.data)
    (hreceived : happening = .receiving → given e.history = e.data) :
    (e.add happening).AnsweredOnce := by
  have hnone (front : List Happening) : answers (front ++ [happening]) = answers front := by
    simp [hquiet]
  constructor
  · intro front back hsplit
    rcases concat_split hsplit with ⟨rfl, rfl, heq⟩ | ⟨before, rfl, hold⟩
    · exact ⟨hrefused heq.symm, rfl⟩
    · rw [hnone]
      exact h.refused front before hold
  · rw [history_add, hnone]
    exact h.once
  · intro front back hsplit
    rcases concat_split hsplit with ⟨rfl, -⟩ | ⟨before, rfl, hold⟩
    · rfl
    · rw [hnone]
      exact h.stopped front before hold
  · rw [history_add, hnone]
    intro hmem
    rcases mem_append.1 hmem with hmem | hmem
    · exact h.reported hmem
    · exact hreported (mem_singleton.1 hmem).symm
  · rw [history_add, given_concat]
    exact hprefixed
  · intro front back hsplit
    rcases concat_split hsplit with ⟨rfl, rfl, heq⟩ | ⟨before, rfl, hold⟩
    · exact hreceived heq.symm
    · exact h.received front before hold

/-- A live exchange is answered. -/
theorem add_answer {happening : Happening} (hanswer : happening.isAnswer = true) (hlive : e.Live) :
    (e.add happening).AnsweredOnce := by
  have hone : answers (e.history ++ [happening]) = [happening] := by
    simp [hanswer, hlive.answers]
  have hbytes : happening.bytes = [] := by
    cases happening with
    | gave bytes => cases hanswer
    | _ => rfl
  constructor
  · intro front back hsplit
    rcases concat_split hsplit with ⟨-, -, rfl⟩ | ⟨before, -, hold⟩
    · cases hanswer
    · refine absurd ?_ (h.not_refused hlive.answers)
      rw [hold]
      simp
  · rw [history_add, hone]
    rfl
  · intro front back hsplit
    rcases concat_split hsplit with ⟨rfl, -⟩ | ⟨before, -, hold⟩
    · rfl
    · refine absurd ?_ hlive.stopped
      rw [hold]
      simp
  · intro _
    rw [history_add, hone]
    rfl
  · rw [history_add, given_concat, hbytes, append_nil]
    exact h.prefixed
  · intro front back hsplit
    rcases concat_split hsplit with ⟨-, -, rfl⟩ | ⟨before, -, hold⟩
    · cases hanswer
    · exact h.received front before hold

end Exchange.AnsweredOnce

end JobHttpClient

namespace ClientRun

open Exchange

variable {r : ClientRun}
variable {e : Exchange} {happening : Happening} {writes : Writes} {n : Nat} {frame : Frame}
  {client : JobHttpClient} {error : String} {result : JobHttpParser.ParseResult}
  {frames : List Frame} {r' : ClientRun}

theorem exchange_record (n i : Nat) (happening : Happening) (r : ClientRun) :
    (r.record n happening).exchanges[i]? =
      if n = i then r.exchanges[i]?.map (Exchange.add happening) else r.exchanges[i]? := by
  rw [record, List.getElem?_modify]
  split
  · rfl
  · simp

@[simp] theorem length_record (n : Nat) (happening : Happening) (r : ClientRun) :
    (r.record n happening).exchanges.length = r.exchanges.length := length_modify ..

@[simp] theorem current_record (n : Nat) (happening : Happening) (r : ClientRun) :
    (r.record n happening).current = r.current := by
  simp [current]

/-- The frames of a message that is being handled. -/
def inMessage : Frame → Bool
  | .body _ _ | .progress _ => true
  | _ => false

/-- What a frame relies on when it returns. -/
def FrameHolds (exchanges : List Exchange) : Frame → Prop
  | .connecting n _ => n < exchanges.length
  | .callback (.send n) =>
    ∃ e, exchanges[n]? = some e ∧ ∃ text, text ≠ "" ∧ answers e.history = [.onError text]
  | _ => True

/-- What holds whatever the state is, while no message is being handled. -/
structure Base (r : ClientRun) : Prop where
  answered : ∀ (n : Nat) (e : Exchange), r.exchanges[n]? = some e → e.AnsweredOnce
  frames : ∀ frame ∈ r.frames, FrameHolds r.exchanges frame
  noMessage : ∀ frame ∈ r.frames, inMessage frame = false

/-- The current exchange waits for its answer. -/
def Waits (r : ClientRun) : Prop := ∃ e, r.exchanges[r.current]? = some e ∧ e.Live

/-- What the current exchange has not given to its transport is what the client has left. -/
structure Sends (r : ClientRun) (e : Exchange) : Prop where
  current : r.exchanges[r.current]? = some e
  live : e.Live
  given : given e.history ++ r.remaining = e.data

/-- What holds between two steps. -/
structure Holds (r : ClientRun) : Prop where
  answered : ∀ (n : Nat) (e : Exchange), r.exchanges[n]? = some e → e.AnsweredOnce
  frames : ∀ frame ∈ r.frames, FrameHolds r.exchanges frame
  top : ∀ frame ∈ r.frames.head?, inMessage frame = true → r.client.state = .Receiving
  below : ∀ frame ∈ r.frames.tail, inMessage frame = false
  sends : r.client.state = .Connecting ∨ r.client.state = .Sending → ∃ e, r.Sends e
  receives : r.client.state = .Receiving → r.Waits
  failed : r.client.state = .Error →
    ∃ e, r.exchanges[r.current]? = some e ∧ answers e.history = [.onError r.client.lastError]
  attached : r.client.transport ≠ .None → r.client.isBusy = true

theorem answered_record (h : ∀ (i : Nat) (e : Exchange), r.exchanges[i]? = some e → e.AnsweredOnce)
    (hadd : ∀ e, r.exchanges[n]? = some e → e.AnsweredOnce → (e.add happening).AnsweredOnce) :
    ∀ (i : Nat) (e : Exchange), (r.record n happening).exchanges[i]? = some e → e.AnsweredOnce := by
  intro i e hi
  rw [exchange_record] at hi
  split at hi
  · rename_i hn
    subst hn
    obtain ⟨old, hold, rfl⟩ := map_eq_some_iff.1 hi
    exact hadd old hold (h n old hold)
  · exact h i e hi

/-- A frame keeps what it relies on, unless an exchange that is answered is answered again. -/
theorem frameHolds_record (h : FrameHolds r.exchanges frame)
    (hfirst : happening.isAnswer = true → ∀ e, r.exchanges[n]? = some e → answers e.history = []) :
    FrameHolds (r.record n happening).exchanges frame := by
  cases frame with
  | connecting m transport =>
    have hlength := length_record n happening r
    exact Nat.lt_of_lt_of_eq h hlength.symm
  | callback rest =>
    cases rest with
    | handler => exact h
    | send m =>
      obtain ⟨e, he, text, htext, hanswers⟩ := h
      have hm := exchange_record n m happening r
      by_cases hn : n = m
      · subst hn
        have hquiet : happening.isAnswer = false := by
          apply Bool.eq_false_iff.2
          intro hanswer
          rw [hfirst hanswer e he] at hanswers
          cases hanswers
        refine ⟨e.add happening, ?_, text, htext, ?_⟩
        · rw [hm, if_pos rfl, he]
          rfl
        · rw [history_add, answers_concat, hanswers, hquiet]
          rfl
      · refine ⟨e, ?_, text, htext, hanswers⟩
        rw [hm, if_neg hn, he]
  | body data parser => exact h
  | progress result => exact h

theorem current_note (h : r.exchanges[r.current]? = some e) :
    (r.note happening).exchanges[r.current]? = some (e.add happening) := by
  rw [note, exchange_record, if_pos rfl, h]
  rfl

/-- What the current exchange is after something happened to an exchange. -/
theorem current_of_record (n : Nat) (happening : Happening) (h : r.exchanges[r.current]? = some e) :
    (r.record n happening).exchanges[r.current]? = some e ∨
      (r.record n happening).exchanges[r.current]? = some (e.add happening) := by
  rw [exchange_record]
  split
  · right
    rw [h]
    rfl
  · exact Or.inl h

/-- An answer to the current exchange, after which the client is not busy. -/
theorem Base.answer {rest : Rest} (h : Base r) (hwaits : r.Waits)
    (hanswer : happening.isAnswer = true) (hfinal : client.state = .Complete ∨
      (client.state = .Error ∧ happening = .onError client.lastError))
    (htransport : client.transport = .None)
    (hrest : ∀ n, rest = .send n → n = r.current ∧ ∃ text, text ≠ "" ∧ happening = .onError text) :
    Holds (((r.withClient client).note happening).push (.callback rest)) := by
  obtain ⟨e, he, hlive⟩ := hwaits
  have hcurrent : ((r.withClient client).note happening).exchanges[r.current]? =
      some (e.add happening) := current_note (r := r.withClient client) he
  have hanswers : answers (e.add happening).history = [happening] := by
    rw [history_add, answers_concat, hlive.answers, hanswer]
    rfl
  have hfirst : ∀ e', (r.withClient client).exchanges[r.current]? = some e' →
      answers e'.history = [] := by
    intro e' he'
    rw [Option.some.inj (he'.symm.trans he)]
    exact hlive.answers
  have hstate : client.state ≠ .Connecting ∧ client.state ≠ .Sending ∧
      client.state ≠ .Receiving := by
    rcases hfinal with hfinal | ⟨hfinal⟩
    · simp [hfinal]
    · simp [hfinal]
  constructor
  · refine answered_record (r := r.withClient client) h.answered ?_
    intro e' he' hold
    rw [Option.some.inj (he'.symm.trans he)] at hold ⊢
    exact hold.add_answer hanswer hlive
  · intro frame hframe
    rcases mem_cons.1 hframe with rfl | hframe
    · cases rest with
      | handler => exact trivial
      | send n =>
        obtain ⟨rfl, text, htext, rfl⟩ := hrest n rfl
        exact ⟨_, hcurrent, text, htext, hanswers⟩
    · exact frameHolds_record (r := r.withClient client) (h.frames frame hframe) fun _ => hfirst
  · intro frame hframe hin
    cases Option.some.inj hframe
    cases hin
  · exact h.noMessage
  · rintro (hconnecting | hsending)
    · exact absurd hconnecting hstate.1
    · exact absurd hsending hstate.2.1
  · intro hreceiving
    exact absurd hreceiving hstate.2.2
  · intro herror
    rcases hfinal with hfinal | ⟨-, rfl⟩
    · exact absurd (hfinal.symm.trans herror) (by simp)
    · refine ⟨e.add (.onError client.lastError), ?_, hanswers⟩
      rw [show (((r.withClient client).note (.onError client.lastError)).push
        (.callback rest)).current = r.current from current_record _ _ (r.withClient client)]
      exact hcurrent
  · intro hattached
    exact absurd htransport hattached

/-- The current exchange has one answer. -/
def IsAnswered (r : ClientRun) : Prop :=
  ∃ e, r.exchanges[r.current]? = some e ∧ (answers e.history).length = 1

theorem Waits.answered (hwaits : r.Waits) (hanswer : happening.isAnswer = true) :
    IsAnswered (((r.withClient client).note happening).push frame) := by
  obtain ⟨e, he, hlive⟩ := hwaits
  refine ⟨e.add happening, ?_, ?_⟩
  · rw [show (((r.withClient client).note happening).push frame).current = r.current from
      current_record _ _ (r.withClient client)]
    exact current_note (r := r.withClient client) he
  · rw [history_add, answers_concat, hlive.answers, hanswer]
    rfl

theorem Base.fail {rest : Rest} (h : Base r) (hwaits : r.Waits) (hstate : r.client.state ≠ .Error)
    (hrest : ∀ n, rest = .send n → n = r.current ∧ error ≠ "") :
    Holds (r.fail error rest) ∧ IsAnswered (r.fail error rest) := by
  rw [ClientRun.fail, if_neg hstate]
  refine ⟨h.answer hwaits rfl (Or.inr ⟨rfl, rfl⟩) rfl ?_, hwaits.answered rfl⟩
  intro n hn
  obtain ⟨hcurrent, herror⟩ := hrest n hn
  exact ⟨hcurrent, error, herror, rfl⟩

/-- A failure in a handler. -/
theorem Base.failHandler (h : Base r) (hwaits : r.Waits) (hstate : r.client.state ≠ .Error) :
    Holds (r.fail error .handler) ∧ IsAnswered (r.fail error .handler) :=
  h.fail hwaits hstate fun _ hn => absurd hn (by simp)

theorem Base.completeResponse (h : Base r) (hwaits : r.Waits) (hstate : r.client.state ≠ .Complete) :
    Holds r.completeResponse ∧ IsAnswered r.completeResponse := by
  rw [ClientRun.completeResponse, if_neg hstate]
  exact ⟨h.answer hwaits rfl (Or.inl rfl) rfl fun _ hn => absurd hn (by simp), hwaits.answered rfl⟩

/-- Something other than an answer, a stop or a byte. -/
theorem Holds.record (h : Holds r)
    (hkind : happening = .reported ∨ ∃ result, happening = .returned result)
    (hadd : ∀ e, r.exchanges[n]? = some e → e.AnsweredOnce → (e.add happening).AnsweredOnce) :
    Holds (r.record n happening) := by
  have hquiet : happening.isAnswer = false ∧ happening ≠ .stopped ∧ happening.bytes = [] := by
    rcases hkind with rfl | ⟨result, rfl⟩
    · simp [isAnswer, bytes]
    · simp [isAnswer, bytes]
  obtain ⟨hanswer, hstopped, hbytes⟩ := hquiet
  constructor
  · exact answered_record h.answered hadd
  · intro frame hframe
    refine frameHolds_record (h.frames frame hframe) ?_
    intro hisAnswer
    rw [hanswer] at hisAnswer
    cases hisAnswer
  · exact h.top
  · exact h.below
  · intro hstate
    obtain ⟨e, hsends⟩ := h.sends hstate
    have hremaining : (r.record n happening).remaining = r.remaining := rfl
    rcases current_of_record n happening hsends.current with he | he
    · exact ⟨e, by rwa [current_record], hsends.live, hsends.given⟩
    · refine ⟨e.add happening, by rwa [current_record], hsends.live.add hanswer hstopped, ?_⟩
      rw [history_add, given_concat, hbytes, append_nil]
      exact hsends.given
  · intro hstate
    obtain ⟨e, he, hlive⟩ := h.receives hstate
    rcases current_of_record n happening he with he | he
    · exact ⟨e, by rwa [current_record], hlive⟩
    · exact ⟨e.add happening, by rwa [current_record], hlive.add hanswer hstopped⟩
  · intro hstate
    obtain ⟨e, he, hanswers⟩ := h.failed hstate
    rcases current_of_record n happening he with he | he
    · exact ⟨e, by rwa [current_record], hanswers⟩
    · refine ⟨e.add happening, by rwa [current_record], ?_⟩
      rw [history_add, answers_concat, hanswers, hanswer]
      rfl
  · exact h.attached

theorem given_beginning (h : e.AnsweredOnce) (hbytes : happening.bytes = []) :
    given e.history ++ happening.bytes <+: e.data := by
  rw [hbytes, append_nil]
  exact h.prefixed

/-- The `send` of an exchange returns. -/
theorem Holds.returned {result : Bool} (h : Holds r)
    (hfalse : result = false → ∃ e, r.exchanges[n]? = some e ∧
      ∃ text, text ≠ "" ∧ answers e.history = [.onError text]) :
    Holds (r.record n (.returned result)) := by
  refine h.record (Or.inr ⟨result, rfl⟩) ?_
  intro e he hanswered
  refine hanswered.add_quiet rfl ?_ (fun heq => absurd heq (by simp)) (given_beginning hanswered rfl)
    fun heq => absurd heq (by simp)
  intro heq
  obtain ⟨e', he', htext⟩ := hfalse (returned.inj heq)
  rw [Option.some.inj (he.symm.trans he')]
  exact htext

/-- A report of the transport has been handled. -/
theorem Holds.reported (h : Holds r) (hanswered : r.IsAnswered) : Holds (r.note .reported) := by
  refine h.record (Or.inl rfl) ?_
  intro e he hold
  obtain ⟨e', he', hone⟩ := hanswered
  rw [← Option.some.inj (he.symm.trans he')] at hone
  exact hold.add_quiet rfl (fun heq => absurd heq (by simp)) (fun _ => hone) (given_beginning hold rfl)
    fun heq => absurd heq (by simp)

/-- The current exchange is stopped. -/
theorem Holds.stop (h : Holds r) (hstate : client.isBusy = false)
    (hidle : client.state = .Idle ∨ client = r.client) (htransport : client.transport = .None)
    (hnone : ∀ frame ∈ r.frames.head?, inMessage frame = false) :
    Holds ((r.withClient client).note .stopped) := by
  simp only [isBusy, Bool.or_eq_false_iff, decide_eq_false_iff_not] at hstate
  constructor
  · refine answered_record (r := r.withClient client) h.answered ?_
    intro e _ hold
    exact hold.add_quiet rfl (fun heq => absurd heq (by simp)) (fun heq => absurd heq (by simp))
      (given_beginning hold rfl) fun heq => absurd heq (by simp)
  · intro frame hframe
    refine frameHolds_record (r := r.withClient client) (h.frames frame hframe) ?_
    intro hanswer
    cases hanswer
  · intro frame hframe hin
    rw [hnone frame hframe] at hin
    cases hin
  · exact h.below
  · rintro (hconnecting | hsending)
    · exact absurd hconnecting hstate.1.1
    · exact absurd hsending hstate.1.2
  · intro hreceiving
    exact absurd hreceiving hstate.2
  · intro herror
    rcases hidle with hidle | rfl
    · exact absurd (hidle.symm.trans herror) (by simp)
    · obtain ⟨e, he, hanswers⟩ := h.failed herror
      refine ⟨e.add .stopped, ?_, ?_⟩
      · rw [note, current_record]
        exact current_note he
      · rw [history_add, answers_concat, hanswers]
        rfl
  · intro hattached
    exact absurd htransport hattached

/-- The current exchange is sent, and nothing else runs in front of it. -/
theorem Base.sending (h : Base r) (hstate : r.client.state = .Connecting ∨ r.client.state = .Sending)
    (hsends : ∃ e, r.Sends e) : Holds r := by
  constructor
  · exact h.answered
  · exact h.frames
  · intro frame hframe hin
    rw [h.noMessage frame (mem_of_mem_head? hframe)] at hin
    cases hin
  · intro frame hframe
    exact h.noMessage frame (mem_of_mem_tail hframe)
  · exact fun _ => hsends
  · intro hreceiving
    rcases hstate with hstate | hstate
    · exact absurd (hstate.symm.trans hreceiving) (by simp)
    · exact absurd (hstate.symm.trans hreceiving) (by simp)
  · intro herror
    rcases hstate with hstate | hstate
    · exact absurd (hstate.symm.trans herror) (by simp)
    · exact absurd (hstate.symm.trans herror) (by simp)
  · intro _
    rcases hstate with hstate | hstate
    · simp [isBusy, hstate]
    · simp [isBusy, hstate]

theorem Sends.waits (h : r.Sends e) : r.Waits := ⟨e, h.current, h.live⟩

theorem Base.waitWritable (h : Base r) (hstate : r.client.state = .Sending) (hsends : r.Sends e) :
    Holds (r.waitWritable writes) := by
  unfold ClientRun.waitWritable
  split
  · exact h.sending (Or.inr hstate) ⟨e, hsends⟩
  · exact (h.failHandler hsends.waits (by simp [hstate])).1

/-- Everything is sent before the state becomes Receiving. -/
theorem Base.allSent (h : Base r) (hstate : r.client.state = .Sending) (hsends : r.Sends e)
    (hall : r.remaining = []) : Holds (r.allSent writes) := by
  have hgiven : given e.history = e.data := by
    rw [← hsends.given, hall, append_nil]
  unfold ClientRun.allSent
  split
  · constructor
    · refine answered_record (r := r.withClient { r.client with state := .Receiving }) h.answered ?_
      intro e' he' hold
      obtain rfl := Option.some.inj (he'.symm.trans hsends.current)
      exact hold.add_quiet rfl (fun heq => absurd heq (by simp)) (fun heq => absurd heq (by simp))
        (given_beginning hold rfl) fun _ => hgiven
    · intro frame hframe
      refine frameHolds_record (r := r.withClient { r.client with state := .Receiving })
        (h.frames frame hframe) ?_
      intro hanswer
      cases hanswer
    · intro frame _ _
      rfl
    · intro frame hframe
      exact h.noMessage frame (mem_of_mem_tail hframe)
    · intro hnot
      rcases hnot with hnot | hnot
      · cases hnot
      · cases hnot
    · intro _
      refine ⟨e.add .receiving, ?_, hsends.live.add rfl (by simp)⟩
      rw [note, current_record]
      exact current_note hsends.current
    · intro hnot
      cases hnot
    · intro _
      rfl
  · exact (h.failHandler hsends.waits (by simp [hstate])).1

/-- The transport takes some of the bytes that are left. -/
theorem Sends.sent (h : r.Sends e) {bytes : Nat} :
    (r.sent bytes).Sends (e.add (.gave (r.remaining.take bytes))) := by
  have hremaining : (r.sent bytes).remaining = r.remaining.drop bytes := by
    change r.client.requestData.drop (r.client.requestBytesSent + bytes) = _
    rw [remaining, drop_drop]
  constructor
  · rw [ClientRun.sent, note, current_record]
    exact current_note h.current
  · exact h.live.add rfl (by simp)
  · rw [history_add, given_concat, hremaining, Happening.bytes, append_assoc, take_append_drop]
    exact h.given

theorem Base.sent {bytes : Nat} (h : Base r) (hsends : r.Sends e) : Base (r.sent bytes) := by
  constructor
  · refine answered_record (n := r.current) h.answered ?_
    intro e' he' hold
    obtain rfl := Option.some.inj (he'.symm.trans hsends.current)
    refine hold.add_quiet rfl (fun heq => absurd heq (by simp)) (fun heq => absurd heq (by simp)) ?_
      fun heq => absurd heq (by simp)
    refine ⟨r.remaining.drop bytes, ?_⟩
    rw [Happening.bytes, append_assoc, take_append_drop]
    exact hsends.given
  · intro frame hframe
    refine frameHolds_record (n := r.current) (h.frames frame hframe) ?_
    intro hanswer
    cases hanswer
  · exact h.noMessage

theorem Base.sendLoop {results : List NetIoResult} (h : Base r) (hstate : r.client.state = .Sending)
    (hsends : r.Sends e) : Holds (r.sendLoop writes results) := by
  induction results generalizing r e with
  | nil =>
    unfold sendLoop
    split
    · exact h.allSent hstate hsends ‹_›
    · exact h.waitWritable hstate hsends
  | cons result results ih =>
    have hfail {error : String} : Holds (r.fail error .handler) :=
      (h.failHandler hsends.waits (by simp [hstate])).1
    unfold sendLoop
    split
    · exact h.allSent hstate hsends ‹_›
    · split
      · split
        · exact hfail
        · split
          · exact hfail
          · exact ih (h.sent hsends) hstate hsends.sent
      · exact h.waitWritable hstate hsends
      · exact hfail
      · exact hfail

theorem Base.sendPendingData (h : Base r) (hstate : r.client.state = .Sending)
    (hsends : r.Sends e) : Holds (r.sendPendingData writes) := by
  unfold ClientRun.sendPendingData
  split
  · exact h.sending (Or.inr hstate) ⟨e, hsends⟩
  · exact h.sendLoop hstate hsends

/-- Outside of the handling of a message. -/
theorem Holds.base (h : Holds r) (hnone : ∀ frame ∈ r.frames.head?, inMessage frame = false) :
    Base r where
  answered := h.answered
  frames := h.frames
  noMessage := by
    intro frame hframe
    cases hframes : r.frames with
    | nil =>
      rw [hframes] at hframe
      cases hframe
    | cons first frames =>
      rw [hframes] at hframe hnone
      have hbelow := h.below
      rw [hframes] at hbelow
      rcases mem_cons.1 hframe with rfl | hframe
      · exact hnone frame rfl
      · exact hbelow frame hframe

theorem Holds.waits (h : Holds r) (hbusy : r.client.isBusy = true) : r.Waits := by
  simp only [isBusy, Bool.or_eq_true, decide_eq_true_iff] at hbusy
  rcases hbusy with hsending | hreceiving
  · obtain ⟨e, hsends⟩ := h.sends hsending
    exact hsends.waits
  · exact h.receives hreceiving

theorem Holds.handleConnected (h : Holds r)
    (hnone : ∀ frame ∈ r.frames.head?, inMessage frame = false) :
    Holds (r.handleConnected writes) := by
  unfold ClientRun.handleConnected
  split
  · exact h
  · rename_i hstate
    rw [not_not] at hstate
    obtain ⟨e, hsends⟩ := h.sends (Or.inl hstate)
    have hbase := h.base hnone
    exact Base.sendPendingData (r := r.withClient { r.client with state := .Sending })
      ⟨hbase.answered, hbase.frames, hbase.noMessage⟩ rfl
      ⟨hsends.current, hsends.live, hsends.given⟩

theorem Holds.handleWritable {disarms : Bool} (h : Holds r)
    (hnone : ∀ frame ∈ r.frames.head?, inMessage frame = false) :
    Holds (r.handleWritable disarms writes) := by
  unfold ClientRun.handleWritable
  split
  · exact h
  · rename_i hstate
    rw [not_not] at hstate
    obtain ⟨e, hsends⟩ := h.sends (Or.inr hstate)
    split
    · exact (h.base hnone).sendPendingData hstate hsends
    · exact ((h.base hnone).failHandler hsends.waits (by simp [hstate])).1

/-- A state that receives, with a frame of the message on top or none. -/
theorem Base.receiving (h : Base r) (hstate : r.client.state = .Receiving) (hwaits : r.Waits) :
    Holds r := by
  constructor
  · exact h.answered
  · exact h.frames
  · intro frame _ _
    exact hstate
  · intro frame hframe
    exact h.noMessage frame (mem_of_mem_tail hframe)
  · intro hnot
    rw [hstate] at hnot
    simp at hnot
  · exact fun _ => hwaits
  · intro hnot
    exact absurd (hstate.symm.trans hnot) (by simp)
  · intro _
    simp [isBusy, hstate]

/-- A frame of the message that is being handled is on top. -/
theorem Base.pushMessage (h : Base r) (hstate : r.client.state = .Receiving) (hwaits : r.Waits)
    (hframe : FrameHolds r.exchanges frame) : Holds (r.push frame) := by
  have hholds := h.receiving hstate hwaits
  constructor
  · exact h.answered
  · intro frame' hmem
    rcases mem_cons.1 hmem with rfl | hmem
    · exact hframe
    · exact h.frames frame' hmem
  · intro frame _ _
    exact hstate
  · exact h.noMessage
  · intro hnot
    change r.client.state = .Connecting ∨ r.client.state = .Sending at hnot
    rw [hstate] at hnot
    simp at hnot
  · exact hholds.receives
  · exact hholds.failed
  · exact hholds.attached

theorem Base.settle (h : Base r) (hstate : r.client.state = .Receiving) (hwaits : r.Waits) :
    Holds (r.settle result) := by
  cases result with
  | NeedMoreData => exact h.receiving hstate hwaits
  | Complete => exact (h.completeResponse hwaits (by simp [hstate])).1
  | Error => exact (h.failHandler hwaits (by simp [hstate])).1

/-- The parser does not matter. -/
theorem Base.withParser (h : Base r) (parser : JobHttpParser) :
    Base (r.withClient { r.client with parser := parser }) :=
  ⟨h.answered, h.frames, h.noMessage⟩

theorem Base.parsed {before : Nat} {parser : JobHttpParser} (h : Base r)
    (hstate : r.client.state = .Receiving) (hwaits : r.Waits) :
    Holds (r.parsed before result parser) := by
  unfold ClientRun.parsed
  split
  · exact (h.withParser parser).pushMessage hstate hwaits trivial
  · exact (h.withParser parser).settle hstate hwaits

theorem Holds.handleMessage {data : Bytes} (h : Holds r)
    (hnone : ∀ frame ∈ r.frames.head?, inMessage frame = false) : Holds (r.handleMessage data) := by
  unfold ClientRun.handleMessage
  split
  · exact h
  · rename_i hnot
    rw [not_or, not_not] at hnot
    have hwaits := h.receives hnot.1
    split
    · exact (h.base hnone).pushMessage hnot.1 hwaits trivial
    · exact (h.base hnone).parsed hnot.1 hwaits

theorem Holds.handleDisconnected (h : Holds r)
    (hnone : ∀ frame ∈ r.frames.head?, inMessage frame = false) (hbusy : r.client.isBusy = true) :
    Holds r.handleDisconnected ∧ IsAnswered r.handleDisconnected := by
  have hwaits := h.waits hbusy
  have hbase := h.base hnone
  have hlive : r.client.state ≠ .Error ∧ r.client.state ≠ .Complete := by
    constructor
    · rintro heq
      simp [isBusy, heq] at hbusy
    · rintro heq
      simp [isBusy, heq] at hbusy
  unfold ClientRun.handleDisconnected
  rw [if_pos hbusy]
  split
  · split
    rename_i result parser hresult
    have hbase := hbase.withParser parser
    cases result with
    | Complete => exact hbase.completeResponse hwaits hlive.2
    | Error => exact hbase.failHandler hwaits hlive.1
    | NeedMoreData => exact hbase.failHandler hwaits hlive.1
  · exact hbase.failHandler hwaits hlive.1

theorem Holds.handleTransportError (h : Holds r) (text : String)
    (hnone : ∀ frame ∈ r.frames.head?, inMessage frame = false) (hbusy : r.client.isBusy = true) :
    Holds (r.handleTransportError text) ∧ IsAnswered (r.handleTransportError text) := by
  have hlive : ¬ (r.client.state = .Complete ∨ r.client.state = .Error) := by
    rintro (heq | heq)
    · simp [isBusy, heq] at hbusy
    · simp [isBusy, heq] at hbusy
  unfold ClientRun.handleTransportError
  rw [if_neg hlive]
  exact (h.base hnone).failHandler (h.waits hbusy) fun heq => hlive (Or.inr heq)

theorem error_ne_empty {resolver sslContext : Bool} {request : JobHttpRequest}
    (h : prepareRequest resolver sslContext request = .error error) : error ≠ "" := by
  unfold prepareRequest buildRequestData at h
  repeat' split at h
  all_goals cases h
  all_goals decide

/-- A new exchange is the current one. -/
theorem Base.begin (h : Base r) (client : JobHttpClient) (data : Bytes) :
    Base ⟨client, r.exchanges ++ [⟨data, []⟩], r.frames⟩ ∧
      Waits ⟨client, r.exchanges ++ [⟨data, []⟩], r.frames⟩ := by
  have hlast : (r.exchanges ++ [(⟨data, []⟩ : Exchange)])[r.exchanges.length]? = some ⟨data, []⟩ :=
    List.getElem?_concat_length
  refine ⟨⟨?_, ?_, h.noMessage⟩, ⟨data, []⟩, ?_, rfl, by simp⟩
  · intro n e he
    rcases Nat.lt_or_ge n r.exchanges.length with hn | hn
    · rw [List.getElem?_append_left hn] at he
      exact h.answered n e he
    · have hbound := List.getElem?_eq_some_iff.1 he
      obtain ⟨hbound⟩ := hbound
      simp only [length_append, length_singleton] at hbound
      obtain rfl : n = r.exchanges.length := by omega
      obtain rfl := Option.some.inj (he.symm.trans hlast)
      exact AnsweredOnce.fresh data
  · intro frame hframe
    have hold := h.frames frame hframe
    cases frame with
    | connecting n transport =>
      change n < (r.exchanges ++ [(⟨data, []⟩ : Exchange)]).length
      rw [length_append]
      exact Nat.lt_add_right 1 hold
    | body _ _ => exact trivial
    | progress _ => exact trivial
    | callback rest =>
      cases rest with
      | handler => exact trivial
      | send n =>
        obtain ⟨e, he, htext⟩ := hold
        refine ⟨e, ?_, htext⟩
        obtain ⟨hn⟩ := List.getElem?_eq_some_iff.1 he
        rw [List.getElem?_append_left hn]
        exact he
  · simp only [current, length_append]
    exact hlast

theorem Holds.send {resolver sslContext : Bool} {request : JobHttpRequest} (h : Holds r)
    (hearly : r.client.state = .Error →
      ∃ data, prepareRequest resolver sslContext request = .ok data) :
    Holds (r.send resolver sslContext request) := by
  unfold ClientRun.send
  split
  · exact h
  · rename_i hidle
    have hnone : ∀ frame ∈ r.frames.head?, inMessage frame = false := by
      intro frame hframe
      apply Bool.eq_false_iff.2
      intro hin
      simp [isBusy, h.top frame hframe hin] at hidle
    have hbase := h.base hnone
    split
    · rename_i error herror
      obtain ⟨hbegun, hwaits⟩ := hbase.begin (cleared r.client request) []
      refine (hbegun.fail hwaits ?_ ?_).1
      · intro hstate
        obtain ⟨data, hdata⟩ := hearly hstate
        rw [herror] at hdata
        cases hdata
      · intro n hn
        cases hn
        refine ⟨?_, error_ne_empty herror⟩
        simp [current]
    · rename_i data hdata
      obtain ⟨hbegun⟩ := hbase.begin
        { cleared r.client request with
          state := .Connecting, transport := transportOf request.url.scheme, requestData := data } data
      have hcurrent : (r.exchanges ++ [(⟨data, []⟩ : Exchange)])[r.exchanges.length]? =
          some ⟨data, []⟩ := List.getElem?_concat_length
      refine Base.sending ⟨hbegun.answered, ?_, ?_⟩ (Or.inl rfl) ⟨⟨data, []⟩, ?_, ⟨rfl, by simp⟩, rfl⟩
      · intro frame hframe
        rcases mem_cons.1 hframe with rfl | hframe
        · change r.exchanges.length < (r.exchanges ++ [(⟨data, []⟩ : Exchange)]).length
          rw [length_append]
          exact Nat.lt_succ_self _
        · exact hbegun.frames frame hframe
      · intro frame hframe
        rcases mem_cons.1 hframe with rfl | hframe
        · rfl
        · exact hbegun.noMessage frame hframe
      · simp only [current, length_append]
        exact hcurrent

/-- What is under the frame that returns. -/
theorem Holds.pop (h : Holds r) (hframes : r.frames = frame :: frames) :
    FrameHolds r.exchanges frame ∧ Base { r with frames := frames } ∧
      Holds { r with frames := frames } := by
  have hall := h.frames
  have hbelow := h.below
  rw [hframes] at hall hbelow
  have hrest : ∀ frame' ∈ frames, FrameHolds r.exchanges frame' := fun frame' hmem =>
    hall frame' (mem_cons_of_mem _ hmem)
  refine ⟨hall frame mem_cons_self, ⟨h.answered, hrest, hbelow⟩, ?_⟩
  constructor
  · exact h.answered
  · exact hrest
  · intro frame' hmem hin
    rw [hbelow frame' (mem_of_mem_head? hmem)] at hin
    cases hin
  · intro frame' hmem
    exact hbelow frame' (mem_of_mem_tail hmem)
  · intro hstate
    obtain ⟨e, hsends⟩ := h.sends hstate
    exact ⟨e, hsends.current, hsends.live, hsends.given⟩
  · exact h.receives
  · exact h.failed
  · exact h.attached

/-- The condition on one action. A send that fails early finds another state than Error; nothing is
stopped while a message is being handled; and when `connectToHost` returns false, its exchange is
the current one, and it is waiting for an error that has a text or has had one. -/
def Allowed (r : ClientRun) : Action → Prop
  | .send resolver sslContext request => r.client.state = .Error →
      ∃ data, prepareRequest resolver sslContext request = .ok data
  | .cancel | .reset => ∀ frame ∈ r.frames.head?, inMessage frame = false
  | .connectReturns (some lastErrorString) => ∀ n transport,
      r.frames.head? = some (.connecting n transport) → n = r.current ∧
        (r.client.isBusy = true ∧ r.connectError transport lastErrorString ≠ "" ∨
          r.client.state = .Error ∧ r.client.lastError ≠ "")
  | _ => True

/-- Events come while no message is being handled and an exchange is waiting. -/
theorem Holds.reports (h : Holds r) (hreport : r.canReport = true) :
    (∀ frame ∈ r.frames.head?, inMessage frame = false) ∧ r.client.isBusy = true := by
  rw [canReport, Bool.and_eq_true, decide_eq_true_iff] at hreport
  refine ⟨?_, h.attached hreport.1⟩
  intro frame hframe
  have htop := hreport.2
  cases hframes : r.frames with
  | nil =>
    rw [hframes] at hframe
    cases hframe
  | cons first frames =>
    rw [hframes] at hframe htop
    obtain rfl : first = frame := Option.some.inj hframe
    cases first with
    | connecting _ _ => rfl
    | _ => cases htop

/-- A callback returns. -/
theorem Holds.returnFrom {parser : JobHttpParser} (h : Holds r)
    (hframes : r.frames = frame :: frames)
    (hreturn : returnFrom frame result parser { r with frames := frames } = some r') :
    Holds r' := by
  obtain ⟨hframe, hbase, hholds⟩ := h.pop hframes
  have htop : inMessage frame = true → r.client.state = .Receiving := by
    intro hin
    refine h.top frame ?_ hin
    rw [hframes]
    rfl
  cases frame with
  | connecting n transport => cases hreturn
  | body data before =>
    have hstate := htop rfl
    unfold returnFrom at hreturn
    dsimp only at hreturn
    split at hreturn
    · cases hreturn
      exact hbase.parsed hstate (h.receives hstate)
    · cases hreturn
      exact hbase.parsed hstate (h.receives hstate)
  | progress result =>
    have hstate := htop rfl
    cases hreturn
    exact hbase.settle hstate (h.receives hstate)
  | callback rest =>
    cases hreturn
    cases rest with
    | handler => exact hholds
    | send n => exact hholds.returned fun _ => hframe

/-- `connectToHost` returns false. -/
theorem Holds.connectFails {transport : Transport} {text : String} (h : Holds r)
    (hframes : r.frames = .connecting n transport :: frames)
    (hallowed : Allowed r (.connectReturns (some text))) :
    Holds (fail (r.connectError transport text) (.send n) { r with frames := frames }) := by
  obtain ⟨-, hbase, hholds⟩ := h.pop hframes
  have htop : r.frames.head? = some (.connecting n transport) := by
    rw [hframes]
    rfl
  obtain ⟨rfl, ⟨hbusy, htext⟩ | ⟨herror, hlast⟩⟩ := hallowed n transport htop
  · refine (hbase.fail (h.waits hbusy) ?_ ?_).1
    · rintro heq
      simp [isBusy, show r.client.state = .Error from heq] at hbusy
    · intro m hm
      cases hm
      exact ⟨rfl, htext⟩
  · -- The error was reported while `connectToHost` ran, and `fail` is silent.
    obtain ⟨e, he, hanswers⟩ := h.failed herror
    have hsilent : fail (r.connectError transport text) (.send r.current)
        { r with frames := frames } =
        ClientRun.record r.current (.returned false) { r with frames := frames } := if_pos herror
    rw [hsilent]
    exact hholds.returned fun _ => ⟨e, he, _, hlast, hanswers⟩

theorem Holds.cancel (h : Holds r) (hnone : ∀ frame ∈ r.frames.head?, inMessage frame = false) :
    Holds r.cancel := by
  unfold ClientRun.cancel
  split
  · exact h.stop rfl (Or.inl rfl) rfl hnone
  · rename_i hidle
    rw [Bool.not_eq_true] at hidle
    have htransport : r.client.transport = .None := by
      by_contra hattached
      rw [h.attached hattached] at hidle
      cases hidle
    exact h.stop hidle (Or.inr rfl) htransport hnone

theorem Holds.step {action : Action} (h : Holds r) (hallowed : Allowed r action)
    (hstep : r.step action = some r') : Holds r' := by
  cases action with
  | send resolver sslContext request =>
    obtain ⟨-, heq⟩ := ite_none_right_eq_some.1 hstep
    cases heq
    exact h.send hallowed
  | cancel =>
    obtain ⟨-, heq⟩ := ite_none_right_eq_some.1 hstep
    cases heq
    exact h.cancel hallowed
  | reset =>
    obtain ⟨-, heq⟩ := ite_none_right_eq_some.1 hstep
    cases heq
    exact h.stop rfl (Or.inl rfl) rfl hallowed
  | connected writes =>
    obtain ⟨hreport, heq⟩ := ite_none_right_eq_some.1 hstep
    cases heq
    exact h.handleConnected (h.reports hreport).1
  | writable disarms writes =>
    obtain ⟨hreport, heq⟩ := ite_none_right_eq_some.1 hstep
    cases heq
    exact h.handleWritable (h.reports hreport).1
  | message data =>
    obtain ⟨hreport, heq⟩ := ite_none_right_eq_some.1 hstep
    cases heq
    exact h.handleMessage (h.reports hreport).1
  | disconnected =>
    obtain ⟨hreport, heq⟩ := ite_none_right_eq_some.1 hstep
    cases heq
    obtain ⟨hnone, hbusy⟩ := h.reports hreport
    obtain ⟨hholds, hanswered⟩ := h.handleDisconnected hnone hbusy
    exact hholds.reported hanswered
  | error text =>
    obtain ⟨hreport, heq⟩ := ite_none_right_eq_some.1 hstep
    cases heq
    obtain ⟨hnone, hbusy⟩ := h.reports hreport
    obtain ⟨hholds, hanswered⟩ := h.handleTransportError text hnone hbusy
    exact hholds.reported hanswered
  | connectReturns lastErrorString =>
    simp only [ClientRun.step] at hstep
    split at hstep
    · rename_i n transport frames hframes
      cases lastErrorString with
      | none =>
        cases hstep
        exact (h.pop hframes).2.2.returned fun heq => absurd heq (by simp)
      | some text =>
        cases hstep
        exact h.connectFails hframes hallowed
    · cases hstep
  | callbackReturns result parser =>
    simp only [ClientRun.step] at hstep
    split at hstep
    · exact h.returnFrom ‹_› hstep
    · cases hstep

theorem holds_start (parser : JobHttpParser) : Holds (start parser) := by
  constructor
  · intro n e he
    cases he
  · intro frame hframe
    cases hframe
  · intro frame hframe
    cases hframe
  · intro frame hframe
    cases hframe
  · rintro (hstate | hstate)
    · cases hstate
    · cases hstate
  · intro hstate
    cases hstate
  · intro hstate
    cases hstate
  · intro hattached
    exact absurd rfl hattached

theorem Reachable.holds (h : Reachable Allowed r) : Holds r := by
  induction h with
  | start parser => exact holds_start parser
  | step _ hallowed hstep ih => exact ih.step hallowed hstep

/-- The run of some actions. -/
def after (r : ClientRun) : List Action → Option ClientRun
  | [] => some r
  | action :: actions => (r.step action).bind fun r => r.after actions

theorem Reachable.after {allowed : ClientRun → Action → Prop} (hall : ∀ r action, allowed r action)
    {actions : List Action} (h : Reachable allowed r) (hafter : r.after actions = some r') :
    Reachable allowed r' := by
  induction actions generalizing r with
  | nil =>
    cases hafter
    exact h
  | cons action actions ih =>
    obtain ⟨next, hnext, hrest⟩ := bind_eq_some_iff.1 hafter
    exact ih (.step h (hall r action) hnext) hrest

/-- A parser that has read nothing. -/
def newParser : JobHttpParser := .fresh .Get .Store false

end ClientRun

end JobNet
