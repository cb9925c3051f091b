import RegisterMachine.Word

/-!
# RegisterMachine.Host.Output

A stream of output that is buffered by lines. The stream passes bytes on to a
**device**, which takes each write as a whole or refuses it.

A line feed sends everything up to it to the device; what follows the last one is
held in a buffer until the stream is flushed or the buffer is full. Bytes that
the device refuses while they are in the buffer stay there, and the next flush
tries them again. So on a device that refuses everything, a short text without a
line feed makes every later flush fail, even one after an empty write.

On a device that refuses nothing, writing and flushing just passes the bytes on
(`write_of_willing`).
-/

namespace RegisterMachine

/-- A stream of output that is buffered by lines. -/
structure Output where
  /-- What the device has taken. -/
  delivered : Array Byte
  /-- What is in the buffer. -/
  held : List Byte
  /-- How many writes the device has been given. -/
  writes : Nat
  /-- Which of the writes to the device, counted from zero, are refused. -/
  refuses : Nat → Bool

namespace Output

/-- A stream over a device that refuses some writes. -/
def start (refuses : Nat → Bool) : Output := ⟨#[], [], 0, refuses⟩

/-- How many bytes the buffer can hold. -/
def capacity : Nat := 1024

/-- The code of the line feed. -/
def lineFeed : Byte := 10

/-- Gives the device some bytes. Here and below, the first component says whether that has
succeeded. -/
def send (o : Output) (bytes : List Byte) : Bool × Output :=
  if o.refuses o.writes then (false, { o with writes := o.writes + 1 })
  else
    (true, { o with writes := o.writes + 1, delivered := o.delivered.appendList bytes })

/-- Goes on only after success. -/
def andThen (result : Bool × Output) (next : Output → Bool × Output) : Bool × Output :=
  if result.1 then next result.2 else result

/-- Gives the device what is in the buffer. -/
def flush (o : Output) : Bool × Output :=
  if o.held = [] then (true, o)
  else andThen (o.send o.held) fun o => (true, { o with held := [] })

/-- Puts bytes into the buffer. If there is no room for them, the buffer is flushed first, and if
there still is none, they go to the device. -/
def push (o : Output) (bytes : List Byte) : Bool × Output :=
  andThen (if capacity < o.held.length + bytes.length then o.flush else (true, o)) fun o =>
    if capacity ≤ bytes.length then o.send bytes
    else (true, { o with held := o.held ++ bytes })

/-- The bytes up to the last line feed, and those after it. -/
def splitLines : List Byte → List Byte × List Byte
  | [] => ([], [])
  | b :: bs =>
    let (lines, tail) := splitLines bs
    if lines ≠ [] ∨ b = lineFeed then (b :: lines, tail) else ([], b :: tail)

/-- Sends complete lines, after what is in the buffer. -/
def sendLines (o : Output) (lines : List Byte) : Bool × Output :=
  if o.held = [] then o.send lines else andThen (o.push lines) flush

/-- Gives the stream some bytes: complete lines are sent, the rest is put into the buffer. -/
def pass (o : Output) (bytes : List Byte) : Bool × Output :=
  let (lines, tail) := splitLines bytes
  let sent :=
    if lines ≠ [] then o.sendLines lines
    else if o.held.getLast? = some lineFeed then o.flush
    else (true, o)
  andThen sent fun o => o.push tail

/-- Writes some bytes and flushes the stream. -/
def write (o : Output) (bytes : List Byte) : Bool × Output := andThen (o.pass bytes) flush

/-- All bytes that the stream has been given and has not lost, in order. -/
def content (o : Output) : List Byte := o.delivered.toList ++ o.held

/-! ### A device that refuses nothing -/

/-- The device refuses nothing. -/
def Willing (o : Output) : Prop := ∀ n, o.refuses n = false

/-- The stream has taken some more bytes, and the device still refuses nothing. -/
structure Took (o : Output) (bytes : List Byte) (result : Bool × Output) : Prop where
  success : result.1 = true
  willing : result.2.Willing
  content : result.2.content = o.content ++ bytes

theorem splitLines_append (bytes : List Byte) :
    (splitLines bytes).1 ++ (splitLines bytes).2 = bytes := by
  induction bytes with
  | nil => rfl
  | cons b bs ih =>
    rw [splitLines]
    generalize splitLines bs = parts at ih
    obtain ⟨lines, tail⟩ := parts
    dsimp only at ih ⊢
    split
    · simpa using ih
    · rename_i h
      obtain rfl : lines = [] := Classical.byContradiction fun hl => h (Or.inl hl)
      simpa using ih

theorem took_send {o : Output} (h : o.Willing) (hheld : o.held = []) (bytes : List Byte) :
    Took o bytes (o.send bytes) := by
  have hs : o.send bytes =
      (true, { o with writes := o.writes + 1, delivered := o.delivered.appendList bytes }) := by
    rw [send, h]
    rfl
  rw [hs]
  exact ⟨rfl, h, by simp [content, hheld]⟩

/-- One taking after another. -/
theorem Took.andThen {o : Output} {bs cs : List Byte} {first : Bool × Output}
    {next : Output → Bool × Output} (h : Took o bs first)
    (h' : ∀ o' : Output, first.2 = o' → o'.Willing → Took o' cs (next o')) :
    Took o (bs ++ cs) (Output.andThen first next) := by
  obtain ⟨h₁, h₂, h₃⟩ := h' first.2 rfl h.willing
  rw [Output.andThen, if_pos h.success]
  exact ⟨h₁, h₂, by rw [h₃, h.content, List.append_assoc]⟩

theorem took_flush {o : Output} (h : o.Willing) : Took o [] o.flush := by
  unfold flush
  split
  · exact ⟨rfl, h, by simp⟩
  · have hs : o.send o.held =
        (true, { o with writes := o.writes + 1, delivered := o.delivered.appendList o.held }) := by
      rw [send, h]
      rfl
    rw [hs]
    exact ⟨rfl, h, by simp [content, Output.andThen]⟩

theorem held_flush {o : Output} (h : o.Willing) : o.flush.2.held = [] := by
  unfold flush
  split
  · assumption
  · rw [send, h]
    rfl

theorem took_push {o : Output} (h : o.Willing) (bytes : List Byte) :
    Took o bytes (o.push bytes) := by
  have key : ∀ o' : Output, o'.Willing → (capacity ≤ bytes.length → o'.held = []) →
      Took o' bytes (if capacity ≤ bytes.length then o'.send bytes
        else (true, { o' with held := o'.held ++ bytes })) := by
    intro o' hw hheld
    split
    · rename_i hlen
      exact took_send hw (hheld hlen) bytes
    · exact ⟨rfl, hw, by simp [content]⟩
  unfold push
  rw [← List.nil_append bytes]
  by_cases hfull : capacity < o.held.length + bytes.length
  · simp only [List.nil_append, if_pos hfull]
    refine (took_flush h).andThen fun o' ho' hw => key o' hw fun _ => ?_
    rw [← ho', held_flush h]
  · simp only [List.nil_append, if_neg hfull]
    have hstart : Took o [] (true, o) := ⟨rfl, h, by simp⟩
    refine hstart.andThen fun o' ho' hw => key o' hw fun hlen => ?_
    rw [← ho']
    exact List.eq_nil_of_length_eq_zero (by show o.held.length = 0; omega)

theorem took_sendLines {o : Output} (h : o.Willing) (lines : List Byte) :
    Took o lines (o.sendLines lines) := by
  unfold sendLines
  split
  · rename_i hheld
    exact took_send h hheld lines
  · simpa using (took_push h lines).andThen fun o' _ hw => took_flush hw

theorem took_pass {o : Output} (h : o.Willing) (bytes : List Byte) :
    Took o bytes (o.pass bytes) := by
  have hsplit := splitLines_append bytes
  unfold pass
  generalize splitLines bytes = parts at hsplit
  obtain ⟨lines, tail⟩ := parts
  dsimp only at hsplit ⊢
  subst hsplit
  refine Took.andThen ?_ fun o' _ hw => took_push hw tail
  split
  · exact took_sendLines h lines
  · rename_i hl
    obtain rfl : lines = [] := Classical.byContradiction hl
    split
    · exact took_flush h
    · exact ⟨rfl, h, by simp⟩

/-- On a device that refuses nothing, a write succeeds, and after it all bytes that the stream
has been given are delivered. -/
theorem write_of_willing {o : Output} (h : o.Willing) (bytes : List Byte) :
    (o.write bytes).1 = true ∧ (o.write bytes).2.Willing ∧
      (o.write bytes).2.delivered.toList = o.content ++ bytes ∧ (o.write bytes).2.held = [] := by
  have hpass := took_pass h bytes
  have hwrite := hpass.andThen fun o' _ hw => took_flush hw
  have hheld : (o.write bytes).2.held = [] := by
    rw [write, andThen, if_pos hpass.success]
    exact held_flush hpass.willing
  have hcontent : (o.write bytes).2.content = o.content ++ bytes := by
    simpa [write] using hwrite.content
  refine ⟨hwrite.success, hwrite.willing, ?_, hheld⟩
  rw [← hcontent, content, hheld, List.append_nil]

end Output

end RegisterMachine
