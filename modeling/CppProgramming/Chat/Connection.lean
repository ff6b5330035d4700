import CppProgramming.Chat.Message

/-!
# Reading and writing messages

A session of the server and a client read and write in the same way.  The reader asks for a
header, and then for a body of the length that the header says; `async_read` completes when all
of it has come.  The writer has a queue of messages, and one `async_write` at a time, for the
first of them; it is taken out of the queue when it is written.

`Reader.Took` says what of the bytes that came is read, and `Writer.Gave` what of the messages
that were delivered is on the wire.
-/

namespace CppProgramming.Chat

open CppProgramming.Lib

/-! ### The reader -/

/-- What is to be read next. -/
inductive Reading
  | header
  /-- The header is read and accepted. -/
  | body (data : List UInt8) (bodyLength : ℕ) (hlen : data.length = headerLength)
    (hdecode : decodeHeader data = some bodyLength)
  /-- After an error nothing is read. -/
  | closed

/-- What of the message is read. -/
def Reading.bytes : Reading → List UInt8
  | header | closed => []
  | body data _ _ _ => data

structure Reader where
  /-- What came and was not read. -/
  inbox : List UInt8
  reading : Reading

namespace Reader

def arrive (r : Reader) (bytes : List UInt8) : Reader := { r with inbox := r.inbox ++ bytes }

def close (r : Reader) : Reader := { r with reading := .closed }

/-- The handler of `do_read_header`, when all of the header has come. -/
def readHeader (r : Reader) : Option Reader :=
  match r.reading with
  | .header =>
    if hlen : headerLength ≤ r.inbox.length then
      match hdecode : decodeHeader (r.inbox.take headerLength) with
      | some n => some ⟨r.inbox.drop headerLength,
          .body (r.inbox.take headerLength) n (List.length_take_of_le hlen) hdecode⟩
      | none => some ⟨r.inbox.drop headerLength, .closed⟩
    else none
  | _ => none

/-- The handler of `do_read_body`, when all of the body has come. -/
def readBody (r : Reader) : Option (Message × Reader) :=
  match r.reading with
  | .body data n hlen hdecode =>
    if h : n ≤ r.inbox.length then
      some (⟨data, r.inbox.take n, hlen, by rw [List.length_take_of_le h, hdecode]⟩,
        ⟨r.inbox.drop n, .header⟩)
    else none
  | _ => none

/-- Of `input` the messages `ms` were read, and nothing is lost as long as there is no error. -/
structure Took (r : Reader) (ms : List Message) (input : List UInt8) : Prop where
  start : Frame.stream ms <+: input
  rest : r.reading ≠ .closed → Frame.stream ms ++ (r.reading.bytes ++ r.inbox) = input

variable {r r' : Reader} {ms : List Message} {input : List UInt8}

theorem Took.of_rest (h : Frame.stream ms ++ (r.reading.bytes ++ r.inbox) = input) :
    r.Took ms input :=
  ⟨⟨_, h⟩, fun _ => h⟩

theorem Took.arrive (h : r.Took ms input) (bytes : List UInt8) :
    (r.arrive bytes).Took ms (input ++ bytes) where
  start := h.start.trans (List.prefix_append ..)
  rest hopen := by
    have hrest := h.rest hopen
    rw [← hrest, Reader.arrive]
    simp only [List.append_assoc]

theorem Took.close (h : r.Took ms input) : r.close.Took ms input :=
  ⟨h.start, fun hopen => absurd rfl hopen⟩

theorem Took.readHeader (h : r.Took ms input) (hr : r.readHeader = some r') :
    r'.Took ms input := by
  rw [Reader.readHeader] at hr
  split at hr
  · rename_i hreading
    have hrest := h.rest (by rw [hreading]; exact nofun)
    rw [hreading, Reading.bytes, List.nil_append] at hrest
    split at hr
    · split at hr
      · obtain rfl := Option.some.inj hr
        refine .of_rest ?_
        rw [Reading.bytes, List.take_append_drop, hrest]
      · obtain rfl := Option.some.inj hr
        exact ⟨h.start, fun hopen => absurd rfl hopen⟩
    · cases hr
  · cases hr

theorem Took.readBody (h : r.Took ms input) {m : Message} (hr : r.readBody = some (m, r')) :
    r'.Took (ms ++ [m]) input := by
  rw [Reader.readBody] at hr
  split at hr
  · rename_i data n hlen hdecode hreading
    have hrest := h.rest (by rw [hreading]; exact nofun)
    rw [hreading, Reading.bytes] at hrest
    split at hr
    · obtain ⟨rfl, rfl⟩ := Prod.mk.inj (Option.some.inj hr)
      refine .of_rest ?_
      rw [Reading.bytes, Frame.stream_append, Frame.stream_cons, Frame.stream_nil, Frame.bytes,
        List.append_nil, List.nil_append, List.append_assoc, List.append_assoc,
        List.take_append_drop, hrest]
    · cases hr
  · cases hr

/-- A reader that cannot go on has read all frames that came. -/
theorem Took.complete {gs : List Message} (h : r.Took ms (Frame.stream gs))
    (hopen : r.reading ≠ .closed) (hheader : r.readHeader = none) (hbody : r.readBody = none) :
    ms = gs := by
  obtain ⟨rest, rfl⟩ := Frame.prefix_of_stream (by decide) h.start
  have hrest := h.rest hopen
  rw [Frame.stream_append, List.append_cancel_left_eq] at hrest
  cases rest with
  | nil => exact (List.append_nil ms).symm
  | cons f rest =>
    rw [Frame.stream_cons, Frame.bytes, List.append_assoc] at hrest
    cases hreading : r.reading with
    | closed => exact absurd hreading hopen
    | header =>
      -- the header of `f` has come
      rw [hreading, Reading.bytes, List.nil_append] at hrest
      have hlen : headerLength ≤ r.inbox.length := by
        rw [hrest, List.length_append, f.length_header]
        exact Nat.le_add_right ..
      simp only [Reader.readHeader, hreading, dif_pos hlen] at hheader
      split at hheader <;> cases hheader
    | body data n hlen hdecode =>
      -- the body of `f` has come
      rw [hreading, Reading.bytes] at hrest
      obtain ⟨rfl, hinbox⟩ := List.append_inj hrest (hlen.trans f.length_header.symm)
      obtain rfl := Option.some.inj (hdecode.symm.trans f.decode_header)
      have hle : f.body.length ≤ r.inbox.length := by
        rw [hinbox, List.length_append]
        exact Nat.le_add_right ..
      simp [Reader.readBody, hreading, hle] at hbody

end Reader

/-! ### The writer -/

structure Writer where
  write_msgs_ : List Message
  /-- What is not sent yet of the message that is written. -/
  unsent : Option (List UInt8)
  /-- What was sent. -/
  wire : List UInt8

namespace Writer

/-- `do_write` -/
def doWrite (w : Writer) : Writer := { w with unsent := w.write_msgs_.head?.map Frame.bytes }

/-- `deliver`, or the handler that `write` posts -/
def deliver (w : Writer) (m : Message) : Writer :=
  let writeInProgress := !w.write_msgs_.isEmpty
  let w := { w with write_msgs_ := w.write_msgs_ ++ [m] }
  if !writeInProgress then w.doWrite else w

/-- Some of the message is sent. -/
def transmit (w : Writer) (k : ℕ) : Option Writer :=
  match w.unsent with
  | some bytes =>
    if 0 < k ∧ k ≤ bytes.length then
      some { w with unsent := some (bytes.drop k), wire := w.wire ++ bytes.take k }
    else none
  | none => none

/-- The handler of `async_write`. -/
def written (w : Writer) : Option Writer :=
  match w.unsent with
  | some [] =>
    let w := { w with write_msgs_ := w.write_msgs_.tail, unsent := none }
    some (if !w.write_msgs_.isEmpty then w.doWrite else w)
  | _ => none

/-- The handler of `async_write`, with an error. -/
def fail (w : Writer) : Option Writer :=
  match w.unsent with
  | some _ => some { w with unsent := none }
  | none => none

/-- Of the messages `ms` that were delivered, those not in the queue are on the wire, and of the
first in the queue what is not left to send; after an error nothing more is sent. -/
inductive Gave : Writer → List Message → Prop
  | idle (ms : List Message) : Gave ⟨[], none, Frame.stream ms⟩ ms
  | busy {ms q : List Message} {m : Message} {wire bytes : List UInt8}
      (h : wire ++ bytes = Frame.stream ms ++ m.bytes) :
      Gave ⟨m :: q, some bytes, wire⟩ (ms ++ m :: q)
  | failed {ms q : List Message} {m : Message} {wire : List UInt8}
      (h : wire <+: Frame.stream ms ++ m.bytes) : Gave ⟨m :: q, none, wire⟩ (ms ++ m :: q)

variable {w w' : Writer} {ms : List Message}

theorem Gave.deliver (h : w.Gave ms) (m : Message) : (w.deliver m).Gave (ms ++ [m]) := by
  cases h with
  | idle => exact .busy rfl
  | busy h =>
    rw [List.append_assoc]
    exact .busy h
  | failed h =>
    rw [List.append_assoc]
    exact .failed h

theorem Gave.transmit (h : w.Gave ms) {k : ℕ} (hw : w.transmit k = some w') : w'.Gave ms := by
  cases h with
  | idle | failed => exact nomatch hw
  | busy h =>
    rw [Writer.transmit] at hw
    split at hw
    · rename_i bytes heq
      obtain rfl := Option.some.inj heq
      split at hw
      · obtain rfl := Option.some.inj hw
        refine .busy ?_
        rw [List.append_assoc, List.take_append_drop, h]
      · exact nomatch hw
    · exact nomatch hw

theorem Gave.written (h : w.Gave ms) (hw : w.written = some w') : w'.Gave ms := by
  cases h with
  | idle | failed => exact nomatch hw
  | @busy ms q m wire bytes h =>
    cases bytes with
    | cons => exact nomatch hw
    | nil =>
      obtain rfl := Option.some.inj hw
      rw [List.append_nil] at h
      have hms : Frame.stream (ms ++ [m]) = wire := by
        rw [h, Frame.stream_append, Frame.stream_cons, Frame.stream_nil, List.append_nil]
      rw [List.append_cons]
      cases q with
      | nil =>
        rw [List.append_nil]
        subst hms
        exact .idle _
      | cons m' q =>
        refine .busy ?_
        rw [hms]

theorem Gave.fail (h : w.Gave ms) (hw : w.fail = some w') : w'.Gave ms := by
  cases h with
  | idle | failed => exact nomatch hw
  | busy h =>
    obtain rfl := Option.some.inj hw
    exact .failed ⟨_, h⟩

/-- What is on the wire is the start of the messages, one after the other. -/
theorem Gave.wire_prefix (h : w.Gave ms) : w.wire <+: Frame.stream ms := by
  cases h with
  | idle => exact List.prefix_refl _
  | busy h =>
    rw [List.append_cons, Frame.stream_append]
    refine List.IsPrefix.trans ⟨_, h.trans ?_⟩ (List.prefix_append ..)
    simp
  | failed h =>
    rw [List.append_cons, Frame.stream_append]
    refine h.trans (List.IsPrefix.trans ?_ (List.prefix_append ..))
    simp

theorem Gave.wire_eq (h : w.Gave ms) (hqueue : w.write_msgs_ = []) : w.wire = Frame.stream ms := by
  cases h with
  | idle => rfl
  | busy | failed => exact nomatch hqueue

end Writer

/-! ### One end of a connection -/

structure Conn where
  reader : Reader
  writer : Writer
  /-- How much has come of what the other end has sent. -/
  taken : ℕ
  /-- The messages that were read. -/
  took : List Message
  /-- The messages that were delivered to the writer. -/
  gave : List Message

namespace Conn

def fresh : Conn := ⟨⟨[], .header⟩, ⟨[], none, []⟩, 0, [], []⟩

def deliver (c : Conn) (m : Message) : Conn :=
  { c with writer := c.writer.deliver m, gave := c.gave ++ [m] }

def close (c : Conn) : Conn := { c with reader := c.reader.close }

/-- `k` more bytes come of those that the other end has sent. -/
def arrive (c : Conn) (wire : List UInt8) (k : ℕ) : Option Conn :=
  if 0 < k ∧ c.taken + k ≤ wire.length then
    some { c with
      reader := c.reader.arrive ((wire.drop c.taken).take k)
      taken := c.taken + k }
  else none

def transmit (c : Conn) (k : ℕ) : Option Conn :=
  (c.writer.transmit k).map fun w => { c with writer := w }

def written (c : Conn) : Option Conn := c.writer.written.map fun w => { c with writer := w }

def fail (c : Conn) : Option Conn := c.writer.fail.map fun w => { c with writer := w }

def readHeader (c : Conn) : Option Conn := c.reader.readHeader.map fun r => { c with reader := r }

def readBody (c : Conn) : Option (Message × Conn) :=
  c.reader.readBody.map fun p => (p.1, { c with reader := p.2, took := c.took ++ [p.1] })

/-- **One end is right**, when the other has sent `wire`. -/
structure Right (c : Conn) (wire : List UInt8) : Prop where
  taken_le : c.taken ≤ wire.length
  took : c.reader.Took c.took (wire.take c.taken)
  gave : c.writer.Gave c.gave

variable {c c' : Conn} {wire : List UInt8}

theorem right_fresh : fresh.Right [] where
  taken_le := Nat.le_refl _
  took := .of_rest rfl
  gave := .idle []

/-- The other end sends more. -/
theorem Right.append (h : c.Right wire) (more : List UInt8) : c.Right (wire ++ more) where
  taken_le := by
    rw [List.length_append]
    exact Nat.le_add_right_of_le h.taken_le
  took := by
    rw [List.take_append_of_le_length h.taken_le]
    exact h.took
  gave := h.gave

theorem Right.deliver (h : c.Right wire) (m : Message) : (c.deliver m).Right wire :=
  ⟨h.taken_le, h.took, h.gave.deliver m⟩

theorem Right.close (h : c.Right wire) : c.close.Right wire := ⟨h.taken_le, h.took.close, h.gave⟩

theorem Right.arrive (h : c.Right wire) {k : ℕ} (hc : c.arrive wire k = some c') :
    c'.Right wire := by
  rw [Conn.arrive] at hc
  split at hc
  · rename_i hk
    obtain rfl := Option.some.inj hc
    refine ⟨hk.2, ?_, h.gave⟩
    have htook := h.took.arrive ((wire.drop c.taken).take k)
    rwa [← List.take_add] at htook
  · exact nomatch hc

theorem Right.of_writer (h : c.Right wire) {w : Writer} (hw : w.Gave c.gave) :
    Right { c with writer := w } wire :=
  ⟨h.taken_le, h.took, hw⟩

theorem Right.transmit (h : c.Right wire) {k : ℕ} (hc : c.transmit k = some c') :
    c'.Right wire := by
  obtain ⟨w, hw, rfl⟩ := Option.map_eq_some_iff.mp hc
  exact h.of_writer (h.gave.transmit hw)

theorem Right.written (h : c.Right wire) (hc : c.written = some c') : c'.Right wire := by
  obtain ⟨w, hw, rfl⟩ := Option.map_eq_some_iff.mp hc
  exact h.of_writer (h.gave.written hw)

theorem Right.fail (h : c.Right wire) (hc : c.fail = some c') : c'.Right wire := by
  obtain ⟨w, hw, rfl⟩ := Option.map_eq_some_iff.mp hc
  exact h.of_writer (h.gave.fail hw)

theorem Right.readHeader (h : c.Right wire) (hc : c.readHeader = some c') : c'.Right wire := by
  obtain ⟨r, hr, rfl⟩ := Option.map_eq_some_iff.mp hc
  exact ⟨h.taken_le, h.took.readHeader hr, h.gave⟩

theorem Right.readBody (h : c.Right wire) {m : Message} (hc : c.readBody = some (m, c')) :
    c'.Right wire := by
  obtain ⟨⟨m', r⟩, hr, heq⟩ := Option.map_eq_some_iff.mp hc
  obtain ⟨rfl, rfl⟩ := Prod.mk.inj heq
  exact ⟨h.taken_le, h.took.readBody hr, h.gave⟩

end Conn

/-- **What one end reads are the first of the messages that the other was given.** -/
theorem took_isPrefix {c d : Conn} (hc : c.Right d.writer.wire) (hd : d.writer.Gave d.gave) :
    c.took <+: d.gave :=
  Frame.prefix_of_stream (by decide)
    (hc.took.start.trans ((List.take_prefix ..).trans hd.wire_prefix))

end CppProgramming.Chat
