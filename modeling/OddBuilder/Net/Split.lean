import OddBuilder.Net.Stream

/-!
# Pieces of a response

However a connection cuts a response into pieces, the parser ends where it ends
when it is given all bytes at once: every call of `parse` does what reading its
bytes one by one does. Only after an error two runs may differ, in the line buffer
and in how many of the bytes that made the error were taken.
-/

namespace JobNet

namespace JobHttpParser

variable {p q : JobHttpParser} {rest : Bytes} {result : ParseResult}

namespace Core

variable {p q : Core} {data rest : Bytes}

/-- Two ends of a run agree, the line buffer after an error aside. -/
def Agree (x y : Core × Bytes) : Prop :=
  StreamReader.Agree (fun p => p.state = .Error) (fun p => p.withBuffer []) x y

theorem agree_of_errors {left : Bytes} {error : String} (h : p.withBuffer [] = q.withBuffer []) :
    Agree (p.setError error, rest) (q.setError error, left) := by
  refine Or.inr ⟨rfl, rfl, ?_⟩
  exact congrArg (fun c : Core => c.setError error) h

theorem bufferLine_some {line : Bytes} (h : p.bufferLine data = (some line, q, rest)) :
    q = p.withBuffer [] := by
  induction data generalizing p with
  | nil => simp [bufferLine] at h
  | cons value data ih =>
    unfold bufferLine at h
    split at h
    · simp at h
    · simp only at h
      split at h
      · exact (Prod.mk.inj (Prod.mk.inj h).2).1.symm
      · split at h
        · simp at h
        · have hlater := ih h
          exact hlater

theorem bufferLine_none (h : p.bufferLine data = (none, q, rest)) :
    q.state = p.state ∨ q.state = .Error := by
  induction data generalizing p with
  | nil =>
    obtain ⟨rfl⟩ : p = q ∧ rest = [] := by simpa [bufferLine] using h
    exact Or.inl rfl
  | cons value data ih =>
    unfold bufferLine at h
    split at h
    · obtain rfl := (Prod.mk.inj (Prod.mk.inj h).2).1
      exact Or.inr rfl
    · simp only at h
      split at h
      · simp at h
      · split at h
        · obtain rfl := (Prod.mk.inj (Prod.mk.inj h).2).1
          exact Or.inr rfl
        · have hlater := ih h
          exact hlater

/-- A line that is taken is handled where a reader of bytes handles it. -/
theorem consumeLine_some {line : Bytes} (hlines : p.ReadsLines)
    (hroom : p.lineBuffer.length < kLineBufferSize)
    (h : p.consumeLine data = (some line, q, rest)) :
    q = p.withBuffer [] ∧ reader.run p data = reader.run (q.handleLine line).2 rest := by
  have hbuffered (h : p.bufferLine data = (some line, q, rest)) :
      q = p.withBuffer [] ∧ reader.run p data = reader.run (q.handleLine line).2 rest := by
    refine ⟨bufferLine_some h, ?_⟩
    rw [run_bufferLine hlines hroom, h]
  unfold consumeLine at h
  split at h
  · rename_i hempty
    split at h
    · rename_i i hi
      split at h
      · simp at h
      · obtain ⟨rfl, rfl, rfl⟩ : data.take i = line ∧ p = q ∧ data.drop (i + 2) = rest := by
          simpa using h
        exact ⟨(withBuffer_eq_self hempty).symm, run_line hlines hempty hi (by omega)⟩
    · split at h
      · simp at h
      · exact hbuffered h
  · exact hbuffered h

/-- Where no line is taken, a reader of bytes has read all of them or failed too. -/
theorem consumeLine_none (hlines : p.ReadsLines) (hroom : p.lineBuffer.length < kLineBufferSize)
    (h : p.consumeLine data = (none, q, rest)) :
    Agree (q, rest) (reader.run p data) ∧ (q.state = p.state ∨ q.state = .Error) := by
  have hbuffered (h : p.bufferLine data = (none, q, rest)) :
      Agree (q, rest) (reader.run p data) ∧ (q.state = p.state ∨ q.state = .Error) := by
    refine ⟨Or.inl ?_, bufferLine_none h⟩
    rw [run_bufferLine hlines hroom, h]
  unfold consumeLine at h
  split at h
  · rename_i hempty
    split at h
    · rename_i i hi
      split at h
      · rename_i hlong
        obtain ⟨buffer, left, hrun⟩ := run_long hlines hempty hi hlong
        obtain ⟨rfl⟩ : p.setError lineTooLong = q ∧ data = rest := by simpa using h
        rw [hrun]
        exact ⟨agree_of_errors rfl, Or.inr rfl⟩
      · simp at h
    · split at h
      · rename_i hdata
        obtain ⟨rfl, rfl⟩ : p = q ∧ data = rest := by simpa using h
        subst hdata
        exact ⟨Or.inl rfl, Or.inl rfl⟩
      · exact hbuffered h
  · exact hbuffered h

/-- The result that `parse` gives in a state. -/
def resultOf (p : Core) : ParseResult :=
  match p.state with
  | .Complete => .Complete
  | .Error => .Error
  | _ => .NeedMoreData

/-- A turn leads to where reading the bytes one by one leads. -/
def TurnAgrees (p : Core) (data : Bytes) : Turn → Prop
  | .again q rest => q.Settled ∧ reader.run p data = reader.run q rest
  | .done result q rest => Agree (q, rest) (reader.run p data) ∧ result = q.resultOf

theorem ReadsLines.resultOf (h : p.ReadsLines) : p.resultOf = .NeedMoreData := by
  rcases h with h | h | h | h | h <;> simp [Core.resultOf, h]

theorem lineTurn_agrees (hp : p.Settled) (hlines : p.ReadsLines) (data : Bytes) :
    p.TurnAgrees data (p.lineTurn data) := by
  have hroom := hp.room (by rcases hlines with h | h | h | h | h <;> simp [h])
  unfold lineTurn
  split
  · rename_i q rest hq
    obtain ⟨hagree, hstate⟩ := consumeLine_none hlines hroom hq
    refine ⟨hagree, ?_⟩
    rcases hstate with hstate | hstate
    · have hsame : q.ReadsLines := by
        unfold ReadsLines
        rw [hstate]
        exact hlines
      rw [hsame.resultOf]
      rcases hsame with h | h | h | h | h <;> simp [h]
    · simp [hstate, resultOf]
  · rename_i line q rest hq
    obtain ⟨rfl, hrun⟩ := consumeLine_some hlines hroom hq
    have hempty : (p.withBuffer []).Settled :=
      ⟨fun _ => by simp [withBuffer, kLineBufferSize], hp.start, hp.body, hp.chunk⟩
    have hsettled := (handleLine_handled (p := p.withBuffer []) hlines line).settled hempty hlines
    have hreports := handleLine_reports (p.withBuffer []) line
    split
    · rename_i q hline
      rw [hline] at hreports hrun
      have hstate : q.state = .Error := hreports rfl
      refine ⟨Or.inl ?_, by simp [resultOf, hstate]⟩
      rw [hrun]
      exact (reader.run_final (by simp [reader, isFinal, hstate]) rest).symm
    · rename_i q hline
      rw [hline] at hsettled hrun
      exact ⟨hsettled, hrun⟩

/-- Body bytes are read as a whole, up to where the body or the chunk ends. -/
theorem run_take {n : Nat} (hp : p.Settled) (h : reader.run p (data.take n) = (q, [])) :
    q.Settled ∧ reader.run p data = reader.run q (data.drop n) := by
  constructor
  · have hsettled := run_settled hp (data.take n)
    rw [h] at hsettled
    exact hsettled
  · have hrun := reader.run_append_of_nil h (data.drop n)
    rw [List.take_append_drop] at hrun
    exact hrun

theorem refused_agrees (hstate : p.state = .Body ∨ p.state = .ChunkData) (h : ¬ p.CanReceive)
    (hdata : data ≠ []) : Agree (p.setError noCallback, data) (reader.run p data) := by
  obtain ⟨value, rest, rfl⟩ := List.exists_cons_of_ne_nil hdata
  rw [run_refused hstate h]
  exact agree_of_errors rfl

theorem take_ne_nil (hdata : data ≠ []) {n : Nat} (hn : n ≠ 0) : data.take n ≠ [] := by
  intro htake
  rcases List.take_eq_nil_iff.mp htake with h | h
  · exact hn h
  · exact hdata h

theorem contentLengthTurn_agrees (hp : p.Settled) (hstate : p.state = .Body)
    (hframing : p.bodyFraming = .ContentLength) (hlength : p.bodyBytesReceived < p.contentLength)
    (data : Bytes) : p.TurnAgrees data (p.contentLengthTurn data) := by
  unfold contentLengthTurn
  rw [if_neg (by omega)]
  split
  · rename_i hdata
    subst hdata
    exact ⟨Or.inl rfl, by simp [resultOf, hstate]⟩
  · rename_i hdata
    have hpos := List.length_pos_of_ne_nil hdata
    have hne : data.take (min (p.contentLength - p.bodyBytesReceived) data.length) ≠ [] :=
      take_ne_nil hdata (by omega)
    by_cases hreceive : p.CanReceive
    · simp only [consumeBody_eq hreceive hne]
      refine run_take hp (run_content hstate hframing hreceive hne ?_)
      rw [List.length_take]
      omega
    · simp only [consumeBody_refused hreceive hne]
      exact ⟨refused_agrees (Or.inl hstate) hreceive hdata, rfl⟩

theorem closeDelimitedTurn_agrees (hstate : p.state = .Body)
    (hframing : p.bodyFraming = .CloseDelimited) (data : Bytes) :
    p.TurnAgrees data (p.closeDelimitedTurn data) := by
  unfold closeDelimitedTurn
  split
  · rename_i hdata
    subst hdata
    exact ⟨Or.inl rfl, by simp [resultOf, hstate]⟩
  · rename_i hdata
    by_cases hreceive : p.CanReceive
    · simp only [consumeBody_eq hreceive hdata]
      exact ⟨Or.inl (run_close hstate hframing hreceive data).symm, by simp [resultOf, hstate]⟩
    · simp only [consumeBody_refused hreceive hdata]
      exact ⟨refused_agrees (Or.inl hstate) hreceive hdata, rfl⟩

theorem chunkDataTurn_agrees (hp : p.Settled) (hstate : p.state = .ChunkData) (data : Bytes) :
    p.TurnAgrees data (p.chunkDataTurn data) := by
  have hchunk := hp.chunk hstate
  unfold chunkDataTurn
  rw [if_neg hchunk]
  split
  · rename_i hdata
    subst hdata
    exact ⟨Or.inl rfl, by simp [resultOf, hstate]⟩
  · rename_i hdata
    have hpos := List.length_pos_of_ne_nil hdata
    have hne : data.take (min p.chunkBytesRemaining data.length) ≠ [] :=
      take_ne_nil hdata (by omega)
    by_cases hreceive : p.CanReceive
    · simp only [consumeBody_eq hreceive hne]
      refine run_take hp ?_
      have hlength : (data.take (min p.chunkBytesRemaining data.length)).length =
          min p.chunkBytesRemaining data.length := by simp
      rw [run_chunk hstate hreceive hne (by omega), hlength]
      rfl
    · simp only [consumeBody_refused hreceive hne]
      exact ⟨refused_agrees (Or.inr hstate) hreceive hdata, rfl⟩

theorem turn_agrees (hp : p.Settled) (data : Bytes) : p.TurnAgrees data (p.turn data) := by
  cases hstate : p.state with
  | Complete | Error =>
    have hfinal : reader.final p = true := by simp [reader, isFinal, hstate]
    simp only [turn, hstate]
    exact ⟨Or.inl (reader.run_final hfinal data).symm, by simp [resultOf, hstate]⟩
  | Body =>
    rcases hp.body hstate with hframing | ⟨hframing, hlength⟩
    · simp only [turn, hstate, hframing]
      exact closeDelimitedTurn_agrees hstate hframing data
    · simp only [turn, hstate, hframing]
      exact contentLengthTurn_agrees hp hstate hframing hlength data
  | ChunkData =>
    simp only [turn, hstate]
    exact chunkDataTurn_agrees hp hstate data
  | StatusLine | Headers | ChunkSize | ChunkDataEnd | Trailers =>
    have hlines : p.ReadsLines := by simp [ReadsLines, hstate]
    rw [hlines.turn]
    exact lineTurn_agrees hp hlines data

/-- A call does what reading its bytes one by one does, and says how it ended. -/
theorem parseLoop_agrees (p : Core) (data : Bytes) (hp : p.Settled) :
    Agree (p.parseLoop data).2 (reader.run p data) ∧
      (p.parseLoop data).1 = (p.parseLoop data).2.1.resultOf := by
  induction p, data using parseLoop.induct with
  | case1 p data result q rest hturn =>
    have hagrees := turn_agrees hp data
    rw [hturn] at hagrees
    rw [parseLoop_done hturn]
    exact hagrees
  | case2 p data q rest hturn ih =>
    have hagrees := turn_agrees hp data
    rw [hturn] at hagrees
    obtain ⟨hq, hrun⟩ := hagrees
    rw [parseLoop_again hturn, hrun]
    exact ih hq

theorem parseLoop_settled (hp : p.Settled) (data : Bytes) : (p.parseLoop data).2.1.Settled := by
  rcases (parseLoop_agrees p data hp).1 with heq | ⟨herror, -⟩
  · rw [heq]
    exact run_settled hp data
  · exact settled_of_error herror

theorem isFinal_eq_false_iff (p : Core) : p.isFinal = false ↔ p.resultOf = .NeedMoreData := by
  cases hstate : p.state <;> simp [isFinal, resultOf, hstate]

end Core

/-- `parse` on one piece after another until it says other than NeedMoreData; what is left unread. -/
def parsePieces (p : JobHttpParser) : List Bytes → JobHttpParser × Bytes
  | [] => (p, [])
  | piece :: pieces =>
    match p.parse piece with
    | (.NeedMoreData, p, rest) => ((p.parsePieces pieces).1, rest ++ (p.parsePieces pieces).2)
    | (_, p, rest) => (p, rest ++ pieces.flatten)

open Core

theorem parsePieces_more {piece : Bytes} (pieces : List Bytes)
    (h : p.parse piece = (.NeedMoreData, q, rest)) :
    p.parsePieces (piece :: pieces) = ((q.parsePieces pieces).1, rest ++ (q.parsePieces pieces).2) := by
  simp [parsePieces, h]

theorem parsePieces_end {piece : Bytes} (pieces : List Bytes)
    (h : p.parse piece = (result, q, rest)) (hresult : result ≠ .NeedMoreData) :
    p.parsePieces (piece :: pieces) = (q, rest ++ pieces.flatten) := by
  cases result with
  | NeedMoreData => exact absurd rfl hresult
  | Complete => simp [parsePieces, h]
  | Error => simp [parsePieces, h]

/-- One call of a settled parser: every byte is counted or left, unless the call failed. -/
theorem parse_spec {data : Bytes} (hp : p.toCore.Settled) (h : p.parse data = (result, q, rest)) :
    p.toCore.parseLoop data = (result, q.toCore, rest) ∧
      Agree (q.toCore, rest) (reader.run p.toCore data) ∧ result = q.resultOf ∧ q.toCore.Settled ∧
      (q.state ≠ .Error → q.bytesReceived + rest.length = p.bytesReceived + data.length) := by
  obtain ⟨hagree, hresult⟩ := parseLoop_agrees p.toCore data hp
  have hsettled := parseLoop_settled hp data
  have hleft := reader.run_left_length p.toCore data
  unfold parse at h
  rcases hloop : p.toCore.parseLoop data with ⟨result', core, rest'⟩
  rw [hloop] at h hagree hresult hsettled
  obtain ⟨rfl, rfl, rfl⟩ :
      result' = result ∧ ⟨core, p.bytesReceived + (data.length - rest'.length)⟩ = q ∧ rest' = rest := by
    simpa using h
  refine ⟨rfl, hagree, hresult, hsettled, ?_⟩
  intro hstate
  rcases hagree with heq | ⟨herror, -⟩
  · rw [← heq] at hleft
    simp only at hleft ⊢
    omega
  · exact absurd herror hstate

/-- The calls on the pieces are the calls of a reader that stops in a final state. -/
theorem parsePieces_eq (p : JobHttpParser) (hp : p.toCore.Settled) (pieces : List Bytes) :
    ((p.parsePieces pieces).1.toCore, (p.parsePieces pieces).2) =
      reader.readPieces (fun core data => (core.parseLoop data).2) p.toCore pieces := by
  induction pieces generalizing p with
  | nil => rfl
  | cons piece pieces ih =>
    rcases hparse : p.parse piece with ⟨result, q, rest⟩
    obtain ⟨hloop, -, hresult, hq, -⟩ := parse_spec hp hparse
    rw [StreamReader.readPieces, hloop]
    by_cases hmore : result = .NeedMoreData
    · subst hmore
      have hfinal : reader.final q.toCore = false := (isFinal_eq_false_iff _).mpr hresult.symm
      rw [parsePieces_more pieces hparse, if_neg (by simp [hfinal]), ← ih q hq]
    · have hfinal : reader.final q.toCore = true := by
        rw [← Bool.not_eq_false]
        intro hfalse
        exact hmore (hresult.trans ((isFinal_eq_false_iff _).mp hfalse))
      rw [parsePieces_end pieces hparse hmore, if_pos hfinal]

theorem parsePieces_bytesReceived (p : JobHttpParser) (hp : p.toCore.Settled) (pieces : List Bytes)
    (h : (p.parsePieces pieces).1.state ≠ .Error) :
    (p.parsePieces pieces).1.bytesReceived + (p.parsePieces pieces).2.length =
      p.bytesReceived + pieces.flatten.length := by
  induction pieces generalizing p with
  | nil => rfl
  | cons piece pieces ih =>
    rcases hparse : p.parse piece with ⟨result, q, rest⟩
    obtain ⟨-, -, hresult, hq, hbytes⟩ := parse_spec hp hparse
    rw [List.flatten_cons]
    by_cases hmore : result = .NeedMoreData
    · subst hmore
      have hstate : q.state ≠ .Error := by
        intro herror
        simp [resultOf, herror] at hresult
      rw [parsePieces_more pieces hparse] at h ⊢
      have hlater := ih q hq h
      have hfirst := hbytes hstate
      simp only [List.length_append]
      omega
    · rw [parsePieces_end pieces hparse hmore] at h ⊢
      have hfirst := hbytes h
      simp only [List.length_append]
      omega

/-- A settled parser ends with the pieces where it ends with all bytes at once. -/
theorem parsePieces_agree (hp : p.toCore.Settled) {pieces : List Bytes}
    (h : p.parse pieces.flatten = (result, q, rest)) :
    Agree ((p.parsePieces pieces).1.toCore, (p.parsePieces pieces).2) (q.toCore, rest) := by
  obtain ⟨-, hwhole, -⟩ := parse_spec hp h
  -- Both are compared with reading the bytes one by one.
  have hpieces : Agree ((p.parsePieces pieces).1.toCore, (p.parsePieces pieces).2)
      (reader.run p.toCore pieces.flatten) := by
    rw [parsePieces_eq p hp]
    refine reader.readPieces_agree ?_ (fun _ value hcore hfinal => feed_settled hcore hfinal value)
      (fun core data hcore => (parseLoop_agrees core data hcore).1) hp pieces
    intro core herror
    simp [reader, isFinal, herror]
  exact hpieces.trans hwhole.symm

/-- Feeding the pieces of a response gives what feeding all of it at once gives: the same state,
framing, response and body bytes, an error in both or in neither, and without one the same parser
and the same bytes left. -/
theorem parsePieces_eq_parse (method : HttpMethod) (mode : BodyMode) (callback : Bool)
    (pieces : List Bytes) :
    let pieced := (fresh method mode callback).parsePieces pieces
    let whole := ((fresh method mode callback).parse pieces.flatten).2
    pieced.1.state = whole.1.state ∧
      pieced.1.bodyFraming = whole.1.bodyFraming ∧
      pieced.1.response = whole.1.response ∧
      pieced.1.streamed = whole.1.streamed ∧
      pieced.1.lastError = whole.1.lastError ∧
      (pieced.1.state = .Error ↔ whole.1.state = .Error) ∧
      (whole.1.state = .Complete → pieced.2.length = whole.2.length) ∧
      (whole.1.state ≠ .Error → pieced = whole) := by
  have hfresh : (fresh method mode callback).toCore.Settled := settled_fresh method mode callback
  rcases hparse : (fresh method mode callback).parse pieces.flatten with ⟨result, q, rest⟩
  obtain ⟨-, -, -, -, hbytes⟩ := parse_spec hfresh hparse
  have hcount := parsePieces_bytesReceived _ hfresh pieces
  rcases parsePieces_agree hfresh hparse with heq | ⟨hpieced, hwhole, hview⟩
  · rcases hpieced : (fresh method mode callback).parsePieces pieces with ⟨⟨core, count⟩, left⟩
    rw [hpieced] at heq hcount
    obtain ⟨rfl, rfl⟩ : core = q.toCore ∧ left = rest := by simpa using heq
    refine ⟨rfl, rfl, rfl, rfl, rfl, Iff.rfl, fun _ => rfl, ?_⟩
    intro hstate
    have hsame : count = q.bytesReceived := by
      have h1 := hcount hstate
      have h2 := hbytes hstate
      simp only at h1
      omega
    rw [hsame]
  · have hfield {α : Type} (f : Core → α) (hf : ∀ core : Core, f (core.withBuffer []) = f core) :
        f ((fresh method mode callback).parsePieces pieces).1.toCore = f q.toCore := by
      rw [← hf, ← hf q.toCore]
      exact congrArg f hview
    refine ⟨hfield Core.state fun _ => rfl, hfield Core.bodyFraming fun _ => rfl,
      hfield Core.response fun _ => rfl, hfield Core.streamed fun _ => rfl,
      hfield Core.lastError fun _ => rfl, ⟨fun _ => hwhole, fun _ => hpieced⟩, ?_, ?_⟩
    · intro hcomplete
      exact absurd (hwhole.symm.trans hcomplete) (by simp)
    · intro hstate
      exact absurd hwhole hstate

end JobHttpParser

end JobNet
