import RegisterMachine.Host.Error
import RegisterMachine.Word

/-!
# RegisterMachine.Host.Reader

A source of bytes that does not deliver them all at once: a file, or the standard
input. Bytes **arrive** in chunks of any size, between the chunks a read may be
interrupted, and after the last chunk there is either the end of the input or a
failure that stays.

`Reader.fill n` reads until it has `n` bytes or there are no more, and tries
again after an interruption. What it returns does not depend on how the bytes
arrive: it is an initial part of `Reader.delivered`, the bytes that arrive
altogether (`fill_bytes`), and what is left is the rest (`fill_rest`).
-/

namespace RegisterMachine

/-- What one read of the source comes to. -/
inductive Arrival
  /-- Some bytes; a read with less room leaves the others for the next one. -/
  | chunk (bytes : List Byte)
  /-- Nothing, but the read may be tried again. -/
  | interrupted
  deriving DecidableEq, Repr

/-- Why reading stopped. -/
inductive Stop
  /-- All bytes that were asked for are there. -/
  | full
  /-- The input is at its end. -/
  | ended
  /-- The source has failed. -/
  | failed (e : HostError)
  deriving DecidableEq, Repr

/-- A source of bytes. -/
structure Reader where
  /-- What is still to arrive, in order. -/
  arrivals : List Arrival
  /-- Why the source fails after that, unless it is then at its end. -/
  failure : Option HostError
  deriving DecidableEq, Repr

/-- What reading came to. -/
structure Filling where
  bytes : List Byte
  stop : Stop
  /-- What is still to arrive. -/
  rest : List Arrival
  deriving DecidableEq, Repr

namespace Reader

/-- The source that has all of its bytes at hand. -/
def ofBytes (bytes : List Byte) : Reader := ⟨[.chunk bytes], none⟩

/-- The source that fails at once. -/
def broken (e : HostError) : Reader := ⟨[], some e⟩

/-- The bytes in a list of arrivals. -/
def bytesOf : List Arrival → List Byte
  | [] => []
  | .chunk bs :: as => bs ++ bytesOf as
  | .interrupted :: as => bytesOf as

/-- All bytes that the source delivers. -/
def delivered (r : Reader) : List Byte := bytesOf r.arrivals

/-- Why reading stops where nothing more arrives. -/
def stopAtEnd : Option HostError → Stop
  | none => .ended
  | some e => .failed e

/-- Reads `n` bytes from what arrives, or fewer if the source ends before. -/
def fillFrom (failure : Option HostError) : Nat → List Arrival → Filling
  | 0, as => ⟨[], .full, as⟩
  | _ + 1, [] => ⟨[], stopAtEnd failure, []⟩
  | n + 1, .interrupted :: as => fillFrom failure (n + 1) as
  | n + 1, .chunk bs :: as =>
    if bs.length ≤ n + 1 then
      let filling := fillFrom failure (n + 1 - bs.length) as
      { filling with bytes := bs ++ filling.bytes }
    else ⟨bs.take (n + 1), .full, .chunk (bs.drop (n + 1)) :: as⟩

/-- Reads `n` bytes, or fewer if the source ends before. -/
def fill (n : Nat) (r : Reader) : Filling × Reader :=
  let filling := fillFrom r.failure n r.arrivals
  (filling, { r with arrivals := filling.rest })

/-! ### Reading does not depend on how the bytes arrive -/

theorem fillFrom_bytes (failure : Option HostError) (n : Nat) (as : List Arrival) :
    (fillFrom failure n as).bytes = (bytesOf as).take n := by
  fun_induction fillFrom failure n as with
  | case1 => simp
  | case2 => simp [bytesOf]
  | case3 n as ih => simpa [bytesOf] using ih
  | case4 n bs as h filling ih =>
    have hf : filling.bytes = (bytesOf as).take (n + 1 - bs.length) := ih
    show bs ++ filling.bytes = _
    rw [hf, bytesOf, List.take_append, List.take_of_length_le h]
  | case5 n bs as h =>
    rw [bytesOf, List.take_append_of_le_length (by omega)]

theorem fillFrom_rest (failure : Option HostError) (n : Nat) (as : List Arrival) :
    bytesOf (fillFrom failure n as).rest = (bytesOf as).drop n := by
  fun_induction fillFrom failure n as with
  | case1 => simp
  | case2 => simp [bytesOf]
  | case3 n as ih => simpa [bytesOf] using ih
  | case4 n bs as h filling ih =>
    have hf : bytesOf filling.rest = (bytesOf as).drop (n + 1 - bs.length) := ih
    show bytesOf filling.rest = _
    rw [hf, bytesOf, List.drop_append, List.drop_of_length_le h, List.nil_append]
  | case5 n bs as h =>
    rw [bytesOf, bytesOf, List.drop_append_of_le_length (by omega)]

theorem fillFrom_stop (failure : Option HostError) (n : Nat) (as : List Arrival) :
    (fillFrom failure n as).stop = .full ↔ n ≤ (bytesOf as).length := by
  fun_induction fillFrom failure n as with
  | case1 => simp
  | case2 => cases failure <;> simp [bytesOf, stopAtEnd]
  | case3 n as ih => simpa [bytesOf] using ih
  | case4 n bs as h filling ih =>
    have hf : filling.stop = .full ↔ n + 1 - bs.length ≤ (bytesOf as).length := ih
    show filling.stop = .full ↔ _
    rw [hf, bytesOf, List.length_append]
    omega
  | case5 n bs as h =>
    simp only [bytesOf, List.length_append, true_iff]
    omega

@[simp] theorem delivered_ofBytes (bs : List Byte) : (ofBytes bs).delivered = bs := by
  simp [ofBytes, delivered, bytesOf]

theorem fill_bytes (n : Nat) (r : Reader) : (r.fill n).1.bytes = r.delivered.take n :=
  fillFrom_bytes r.failure n r.arrivals

theorem fill_rest (n : Nat) (r : Reader) : (r.fill n).2.delivered = r.delivered.drop n :=
  fillFrom_rest r.failure n r.arrivals

theorem fill_stop (n : Nat) (r : Reader) :
    (r.fill n).1.stop = .full ↔ n ≤ r.delivered.length :=
  fillFrom_stop r.failure n r.arrivals

end Reader

end RegisterMachine
