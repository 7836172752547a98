import TcpServer.Lib.Endian
import TcpServer.Lib.Prefetch
import TcpServer.Common.UuidText

/-!
# Random numbers and UUIDs

Both functions keep a thread-local buffer of random bytes that they consume by an index and fill
again when it is used up. Every byte of a buffer carries the call of `RAND_bytes` that delivered it,
so that a result can be asked where its bytes come from. The return code of `RAND_bytes` is not
looked at: after a failed call the index goes back to the start all the same, and the bytes that are
there are used again.

The accounting is that of the library's pool of units (`Prefetch`): each buffer has a source, the
last fill that succeeded, and a position up to which it is consumed. `Refines` ties a thread to a
pool, `StepSpec` and `RunSpec` say what a call and a run do in terms of the pool, and the step
lemmas are `Refines.random_spec` and `Refines.uuid_spec`.

So what `run_fresh_iff` says of the bytes is what the library says of the units drawn from a pool:
none is drawn twice and each was delivered if and only if no fill fails that is needed.
-/

namespace TcpServer.Random

open Endian Prefetch

/-- The size of both buffers in bytes. -/
def bufferSize : ℕ := 2048

/-- What the calls of `RAND_bytes` on the thread do: deliver all bytes of the buffer or fail. -/
structure RandBytes where
  /-- The bytes that call `n` delivers, none if it fails. -/
  outcome : ℕ → Option (List (BitVec 8))
  /-- A call that succeeds fills the whole buffer. -/
  length_eq : ∀ n bytes, outcome n = some bytes → bytes.length = bufferSize

/-- The two functions with a buffer. -/
inductive Call
  | random
  | uuid
  deriving DecidableEq

/-- The static variables of one of the functions. `random` counts numbers of eight bytes with its
index, `uuid` counts bytes. -/
structure Prefetched where
  /-- The bytes of the buffer, each with its origin. -/
  buffered : List (Cell (BitVec 8))
  /-- The index behind what is used up. -/
  bufferedIdx : ℕ

/-- The thread-local state. -/
structure Thread where
  /-- The static variables of each function. -/
  buffer : Call → Prefetched
  /-- How often `RAND_bytes` was called on this thread. -/
  calls : ℕ

/-- How many numbers the buffer of `random()` holds. -/
def prefetch : ℕ := 256

/-- Static memory is zero, and both indices are out of range. -/
def start : Thread where
  buffer
    | .random => ⟨List.replicate bufferSize ⟨0, none⟩, prefetch⟩
    | .uuid => ⟨List.replicate bufferSize ⟨0, none⟩, bufferSize⟩
  calls := 0

/-- What a call returns: a number, or a text. -/
inductive Output
  | number (n : BitVec 64)
  | text (s : List Char)

/-- A result and the bytes that were read for it. -/
structure Result where
  /-- What was returned. -/
  output : Output
  /-- The bytes, as they were before the marks. -/
  used : List (Cell (BitVec 8))

/-- A failed call leaves the buffer as it was. -/
def randBytes (env : RandBytes) (n : ℕ) (buffered : List (Cell (BitVec 8))) :
    List (Cell (BitVec 8)) :=
  match env.outcome n with
  | some bytes => delivered n bytes
  | none => buffered

/-- The bytes of the buffer from index `i`, if they are all inside. -/
def readCells (buffered : List (Cell (BitVec 8))) (i n : ℕ) : Option (List (Cell (BitVec 8))) :=
  if i + n ≤ buffered.length then some ((buffered.drop i).take n) else none

namespace Thread

/-- Puts back the buffer of one function. -/
def set (t : Thread) (c : Call) (b : Prefetched) : Thread :=
  { t with buffer := Function.update t.buffer c b }

/-- `RAND_bytes` is called and the index goes back to the start. -/
def refill (env : RandBytes) (t : Thread) (c : Call) : Thread :=
  { t.set c ⟨randBytes env t.calls (t.buffer c).buffered, 0⟩ with calls := t.calls + 1 }

/-- The function has to fill its buffer first. -/
def Refills (t : Thread) : Call → Prop
  | .random => prefetch ≤ (t.buffer .random).bufferedIdx
  | .uuid => bufferSize < (t.buffer .uuid).bufferedIdx + 16

instance (t : Thread) : (c : Call) → Decidable (t.Refills c)
  | .random => inferInstanceAs (Decidable (prefetch ≤ (t.buffer .random).bufferedIdx))
  | .uuid => inferInstanceAs (Decidable (bufferSize < (t.buffer .uuid).bufferedIdx + 16))

end Thread

/-- `random()`: eight bytes make the number, and the index goes on by one. -/
def random (env : RandBytes) (t : Thread) : Option (Result × Thread) := do
  let t := if t.Refills .random then t.refill env .random else t
  let b := t.buffer .random
  let used ← readCells b.buffered (8 * b.bufferedIdx) 8
  return ({ output := .number (.ofNat 64 (numberOf (used.map Cell.value))), used },
    t.set .random { b with bufferedIdx := b.bufferedIdx + 1 })

/-- The version of a UUID, in the upper half of its seventh byte. -/
def setVersion (d : BitVec 8) : BitVec 8 := d &&& 0x0f ||| 0x40

/-- The variant, in the upper two bits of its ninth byte. -/
def setVariant (d : BitVec 8) : BitVec 8 := d &&& 0x3f ||| 0x80

/-- The two marked bytes are overwritten in the buffer. -/
def mark (buffered : List (Cell (BitVec 8))) (i : ℕ) : List (Cell (BitVec 8)) :=
  (buffered.modify (i + 6) fun c ↦ { c with value := setVersion c.value }).modify (i + 8) fun c ↦
    { c with value := setVariant c.value }

/-- `uuid()`: sixteen bytes are marked in the buffer and written in hexadecimal, and the index goes
on by sixteen. -/
def uuid (env : RandBytes) (t : Thread) : Option (Result × Thread) := do
  let t := if t.Refills .uuid then t.refill env .uuid else t
  let b := t.buffer .uuid
  let used ← readCells b.buffered b.bufferedIdx 16
  let rand ← readCells (mark b.buffered b.bufferedIdx) b.bufferedIdx 16
  let text ← uuidText (rand.map Cell.value)
  return ({ output := .text text, used },
    t.set .uuid ⟨mark b.buffered b.bufferedIdx, b.bufferedIdx + 16⟩)

/-! ### Runs

A run is a list of calls of the two functions on one thread, in any order.
-/

/-- The call of one of the two functions. -/
def step (env : RandBytes) (t : Thread) : Call → Option (Result × Thread)
  | .random => random env t
  | .uuid => uuid env t

/-- The results of a list of calls, and the state behind them. -/
def run (env : RandBytes) : Thread → List Call → Option (List Result × Thread)
  | t, [] => some ([], t)
  | t, c :: cs => do
    let (r, t) ← step env t c
    let (rs, t) ← run env t cs
    return (r :: rs, t)

/-- No call of the run finds its buffer used up and has `RAND_bytes` fail. -/
def RefillsSucceed (env : RandBytes) : Thread → List Call → Prop
  | _, [] => True
  | t, c :: cs => (t.Refills c → env.outcome t.calls ≠ none) ∧
      ∀ r t', step env t c = some (r, t') → RefillsSucceed env t' cs

/-! ### What a result says

What is returned has to be computed from the bytes that were read, which are kept with the result,
so that the freshness of results is the freshness of these bytes.
-/

/-- A number is made of the eight bytes read, a text is a UUID for the sixteen bytes read. -/
def Result.WellFormed (r : Result) : Prop :=
  match r.output with
  | .number n => r.used.length = 8 ∧ n = .ofNat 64 (numberOf (r.used.map Cell.value))
  | .text s => r.used.length = 16 ∧ IsUuid (r.used.map Cell.value) s

/-- The indices stay inside the buffers. -/
def Thread.InBounds (t : Thread) : Prop :=
  (t.buffer .random).bufferedIdx ≤ prefetch ∧ (t.buffer .uuid).bufferedIdx ≤ bufferSize

/-! ### The marks

The marks of a UUID replace four bits and two bits. In the buffer they change values only, so the
origins of the bytes and everything outside the chunk of the call stay as they were.
-/

/-- The upper half becomes 4, the lower half is kept. -/
theorem setVersion_eq (d : BitVec 8) : setVersion d = .ofNat 8 (0x40 + d.toNat % 16) := by
  have h : ∀ d : BitVec 8, setVersion d = .ofNat 8 (0x40 + d.toNat % 16) := by decide +kernel
  exact h d

/-- The upper two bits become 10, the others are kept. -/
theorem setVariant_eq (d : BitVec 8) : setVariant d = .ofNat 8 (0x80 + d.toNat % 64) := by
  have h : ∀ d : BitVec 8, setVariant d = .ofNat 8 (0x80 + d.toNat % 64) := by decide +kernel
  exact h d

variable {buffered : List (Cell (BitVec 8))} {i n : ℕ}

/-- A function that does not see what a modification changes gives the same list. -/
theorem map_modify_of_eq {α β : Type*} {g : α → β} {f : α → α} (h : ∀ a, g (f a) = g a) (l : List α)
    (i : ℕ) :
    (l.modify i f).map g = l.map g := by
  refine List.ext_getElem? fun k ↦ ?_
  rw [List.getElem?_map, List.getElem?_map, List.getElem?_modify]
  rcases l[k]? with _ | a
  · rfl
  · show some (g (if i = k then f a else a)) = some (g a)
    split
    · rw [h]
    · rfl

/-- The marks do not change where the bytes come from. -/
theorem map_origin_mark : (mark buffered i).map Cell.origin = buffered.map Cell.origin := by
  have hkeep : ∀ (f : BitVec 8 → BitVec 8) (cells : List (Cell (BitVec 8))) (k : ℕ),
      (cells.modify k fun c ↦ { c with value := f c.value }).map Cell.origin =
        cells.map Cell.origin :=
    fun f cells k ↦ map_modify_of_eq (f := fun c ↦ { c with value := f c.value }) (fun _ ↦ rfl)
      cells k
  rw [mark, hkeep, hkeep]

/-- The marks change no length. -/
theorem length_mark : (mark buffered i).length = buffered.length := by
  rw [mark, List.length_modify, List.length_modify]

/-- Both marks are among the bytes that are used. -/
theorem drop_mark : (mark buffered i).drop (i + 16) = buffered.drop (i + 16) := by
  rw [mark, List.drop_modify_of_lt _ _ _ _ (by omega), List.drop_modify_of_lt _ _ _ _ (by omega)]

/-- The values of modified cells are the modified values. -/
theorem map_value_modify {f : BitVec 8 → BitVec 8} (cells : List (Cell (BitVec 8))) (i : ℕ) :
    (cells.modify i fun c ↦ { c with value := f c.value }).map Cell.value =
      (cells.map Cell.value).modify i f := by
  refine List.ext_getElem? fun k ↦ ?_
  rw [List.getElem?_map, List.getElem?_modify, List.getElem?_modify, List.getElem?_map]
  rcases cells[k]? with _ | c
  · rfl
  · show some (if i = k then _ else _ : Cell (BitVec 8)).value =
      some (if i = k then f c.value else c.value)
    split
    · rfl
    · rfl

/-- What is encoded are the bytes that were used, with their marks. -/
theorem map_value_mark : (((mark buffered i).drop i).take 16).map Cell.value =
    stamped (((buffered.drop i).take 16).map Cell.value) := by
  have hversion : setVersion = fun d ↦ .ofNat 8 (0x40 + d.toNat % 16) := funext setVersion_eq
  have hvariant : setVariant = fun d ↦ .ofNat 8 (0x80 + d.toNat % 64) := funext setVariant_eq
  rw [mark, List.drop_modify_of_ge _ _ _ _ (by omega), List.drop_modify_of_ge _ _ _ _ (by omega),
    List.take_modify, List.take_modify, map_value_modify, map_value_modify, stamped, hversion,
      hvariant,
    Nat.add_sub_cancel_left, Nat.add_sub_cancel_left]

/-! ### The buffers are a pool

A thread is a pool with one buffer for each function. The pool knows units only: where they come
from and how many are used up. The index of `random()` counts numbers, so it is multiplied by their
size.
-/

variable {env : RandBytes} {t : Thread} {p : Pool Call} {c : Call}

/-- How many bytes a call uses. -/
def width : Call → ℕ
  | .random => 8
  | .uuid => 16

/-- How many bytes the index counts. -/
def unit : Call → ℕ
  | .random => 8
  | .uuid => 1

/-- The call succeeds. -/
def RandBytes.ok (env : RandBytes) (n : ℕ) : Bool := (env.outcome n).isSome

/-- The pool says where the bytes of both buffers come from and how far they are consumed. -/
structure Refines (t : Thread) (p : Pool Call) : Prop where
  /-- The fills that the pool counts are the calls of `RAND_bytes`. -/
  fills_eq : p.fills = t.calls
  /-- The bytes of a buffer are the units of its source, in their places. -/
  origin_eq : ∀ c, (t.buffer c).buffered.map Cell.origin = units (p.source c) 0 bufferSize
  /-- The position is the index in bytes. -/
  pos_eq : ∀ c, p.pos c = unit c * (t.buffer c).bufferedIdx
  /-- No buffer is used up beyond its end. -/
  pos_le : ∀ c, p.pos c ≤ bufferSize

/-- The bytes that are still to be used are those that were delivered. -/
def Unread (env : RandBytes) (t : Thread) : Prop :=
  ∀ c, ∀ x ∈ (t.buffer c).buffered.drop (unit c * (t.buffer c).bufferedIdx), x.Genuine env.outcome

/-- The state in which the bytes are consumed. -/
def Thread.prepare (env : RandBytes) (t : Thread) (c : Call) : Thread :=
  if t.Refills c then t.refill env c else t

/-- Static memory comes from no call. -/
theorem map_origin_replicate (n : ℕ) :
    (List.replicate n (⟨0, none⟩ : Cell (BitVec 8))).map Cell.origin = units none 0 n := by
  refine List.ext_getElem (by simp [units]) fun k hk hk' ↦ ?_
  simp [units]

/-- At the start nothing was filled and both buffers are used up. -/
theorem refines_start : Refines start (Pool.start fun _ ↦ bufferSize) where
  fills_eq := rfl
  origin_eq c := by
    match c with
    | .random => exact map_origin_replicate bufferSize
    | .uuid => exact map_origin_replicate bufferSize
  pos_eq c := by
    match c with
    | .random => rfl
    | .uuid => rfl
  pos_le _ := Nat.le_refl _

/-- A buffer never changes its size. -/
theorem Refines.length_eq (h : Refines t p) (c : Call) :
    (t.buffer c).buffered.length = bufferSize := by
  have hlen := congrArg List.length (h.origin_eq c)
  rwa [List.length_map, units, List.length_map, List.length_range'] at hlen

/-- At the start there is nothing left to be used. -/
theorem unread_start : Unread env start := by
  intro c x hx
  have hlen : (start.buffer c).buffered.length ≤ unit c * (start.buffer c).bufferedIdx := by
    rw [refines_start.length_eq, ← refines_start.pos_eq]
    exact Nat.le_refl _
  rw [List.drop_eq_nil_of_le hlen] at hx
  exact absurd hx List.not_mem_nil

/-- A function fills its buffer exactly if the pool has too few units left in it. -/
theorem Refines.refills_iff (h : Refines t p) :
    t.Refills c ↔ p.Exhausted (fun _ ↦ bufferSize) width c := by
  have hpos := h.pos_eq c
  match c with
  | .random =>
    simp only [Thread.Refills, Pool.Exhausted, hpos, prefetch, bufferSize, width, unit]
    omega
  | .uuid =>
    simp only [Thread.Refills, Pool.Exhausted, hpos, bufferSize, width, unit]
    omega

/-- After a call the bytes are those it delivered, or what they were if it failed. -/
theorem map_origin_randBytes {source : Option ℕ}
    (h : buffered.map Cell.origin = units source 0 bufferSize) :
    (randBytes env n buffered).map Cell.origin =
      units (if env.ok n then some n else source) 0 bufferSize := by
  rw [randBytes, RandBytes.ok]
  rcases ho : env.outcome n with _ | bytes
  · exact h
  · show (delivered n bytes).map Cell.origin = units (some n) 0 bufferSize
    rw [map_origin_delivered, env.length_eq n bytes ho]

/-- The buffer that was put back. -/
theorem Thread.buffer_set_self (t : Thread) (c : Call) (b : Prefetched) :
    (t.set c b).buffer c = b :=
  Function.update_self _ _ _

/-- The other buffer is as it was. -/
theorem Thread.buffer_set_of_ne (t : Thread) {c c' : Call} (h : c' ≠ c) (b : Prefetched) :
    (t.set c b).buffer c' = t.buffer c' :=
  Function.update_of_ne h _ _

/-- The buffer that was filled, with its index at the start. -/
theorem Thread.buffer_refill_self (env : RandBytes) (t : Thread) (c : Call) :
    (t.refill env c).buffer c = ⟨randBytes env t.calls (t.buffer c).buffered, 0⟩ :=
  t.buffer_set_self c _

/-- Filling one buffer leaves the other. -/
theorem Thread.buffer_refill_of_ne (env : RandBytes) (t : Thread) {c c' : Call} (h : c' ≠ c) :
    (t.refill env c).buffer c' = t.buffer c' :=
  t.buffer_set_of_ne h _

/-- A fill of the thread is a fill of the pool, whether or not it succeeds. -/
theorem Refines.refill (h : Refines t p) (c : Call) :
    Refines (t.refill env c) (p.refill env.ok c) where
  fills_eq := congrArg Nat.succ h.fills_eq
  origin_eq c' := by
    by_cases hc : c' = c
    · rw [hc, t.buffer_refill_self, Pool.refill_source_self, h.fills_eq]
      exact map_origin_randBytes (h.origin_eq c)
    · rw [t.buffer_refill_of_ne env hc, Pool.refill_source_of_ne hc]
      exact h.origin_eq c'
  pos_eq c' := by
    by_cases hc : c' = c
    · rw [hc, t.buffer_refill_self, Pool.refill_pos_self, Nat.mul_zero]
    · rw [t.buffer_refill_of_ne env hc, Pool.refill_pos_of_ne hc]
      exact h.pos_eq c'
  pos_le c' := by
    by_cases hc : c' = c
    · rw [hc, Pool.refill_pos_self]
      exact Nat.zero_le _
    · rw [Pool.refill_pos_of_ne hc]
      exact h.pos_le c'

/-- So is the fill before a call, which is made if it is needed. -/
theorem Refines.prepare (h : Refines t p) (env : RandBytes) (c : Call) :
    Refines (t.prepare env c) (p.prepare (fun _ ↦ bufferSize) width env.ok c) := by
  rw [Thread.prepare, Pool.prepare]
  by_cases hc : t.Refills c
  · rw [if_pos hc, if_pos (h.refills_iff.1 hc)]
    exact h.refill c
  · rw [if_neg hc, if_neg fun hex ↦ hc (h.refills_iff.2 hex)]
    exact h

/-- A call stores its buffer back and has its bytes behind it. -/
theorem Refines.advance (h : Refines t p) {b : Prefetched}
    (hfit : ¬p.Exhausted (fun _ ↦ bufferSize) width c)
    (horigin : b.buffered.map Cell.origin = (t.buffer c).buffered.map Cell.origin)
    (hidx : unit c * b.bufferedIdx = unit c * (t.buffer c).bufferedIdx + width c) :
    Refines (t.set c b) (p.advance width c) where
  fills_eq := h.fills_eq
  origin_eq c' := by
    by_cases hc : c' = c
    · rw [hc, t.buffer_set_self, horigin]
      exact h.origin_eq c
    · rw [t.buffer_set_of_ne hc]
      exact h.origin_eq c'
  pos_eq c' := by
    by_cases hc : c' = c
    · rw [hc, t.buffer_set_self, Pool.advance_pos_self, h.pos_eq, hidx]
    · rw [t.buffer_set_of_ne hc, Pool.advance_pos_of_ne hc]
      exact h.pos_eq c'
  pos_le c' := by
    by_cases hc : c' = c
    · rw [hc, Pool.advance_pos_self]
      exact Nat.not_lt.1 hfit
    · rw [Pool.advance_pos_of_ne hc]
      exact h.pos_le c'

/-- The bytes a call reads are inside the buffer, and the pool says where they come from. -/
theorem Refines.readCells_eq (h : Refines t p) (hfit : ¬p.Exhausted (fun _ ↦ bufferSize) width c)
    {cells : List (Cell (BitVec 8))} (hlen : cells.length = bufferSize) :
    readCells cells (unit c * (t.buffer c).bufferedIdx) (width c) =
      some ((cells.drop (unit c * (t.buffer c).bufferedIdx)).take (width c)) := by
  rw [Pool.Exhausted, h.pos_eq] at hfit
  rw [readCells, if_pos (by omega)]

/-- The origins of the bytes that a call reads. -/
theorem Refines.map_origin_take (h : Refines t p)
    (hfit : ¬p.Exhausted (fun _ ↦ bufferSize) width c) :
    (((t.buffer c).buffered.drop (unit c * (t.buffer c).bufferedIdx)).take (width c)).map
      Cell.origin =
      units (p.source c) (p.pos c) (width c) := by
  rw [List.map_take, List.map_drop, h.origin_eq c, ← h.pos_eq]
  exact take_drop_units (Nat.not_lt.1 hfit)

/-- A fill that succeeds leaves delivered bytes only. -/
theorem Unread.prepare (h : Unread env t) (hok : t.Refills c → env.outcome t.calls ≠ none) :
    Unread env (t.prepare env c) := by
  rw [Thread.prepare]
  split
  · intro c' x hx
    by_cases hc : c' = c
    · rw [hc, t.buffer_refill_self, Nat.mul_zero, List.drop_zero] at hx
      obtain ⟨bytes, hbytes⟩ := Option.ne_none_iff_exists'.1 (hok (by assumption))
      rw [randBytes, hbytes] at hx
      exact genuine_of_mem_delivered hbytes hx
    · rw [t.buffer_refill_of_ne env hc] at hx
      exact h c' x hx
  · exact h

/-- What is behind the bytes of the call is as it was. -/
theorem Unread.advance (h : Unread env t) {b : Prefetched}
    (hrest : b.buffered.drop (unit c * b.bufferedIdx) =
      (t.buffer c).buffered.drop (unit c * (t.buffer c).bufferedIdx + width c)) :
    Unread env (t.set c b) := by
  intro c' x hx
  by_cases hc : c' = c
  · rw [hc, t.buffer_set_self, hrest, ← List.drop_drop] at hx
    exact h c x (List.mem_of_mem_drop hx)
  · rw [t.buffer_set_of_ne hc] at hx
    exact h c' x hx

/-! ### Calls and runs

A call prepares its buffer, reads a chunk of it and puts the buffer back with its index behind the
chunk. The two functions differ in what they do with the chunk, and in that `uuid()` marks it in the
buffer; `Refines.stepSpec` is what they share.
-/

/-- What a call does, in terms of the pool. -/
structure StepSpec (env : RandBytes) (t : Thread) (p : Pool Call) (c : Call) (r : Result)
    (t' : Thread) :
    Prop where
  /-- The call returns. -/
  step_eq : step env t c = some (r, t')
  /-- Its result has the form it should have. -/
  wellFormed : r.WellFormed
  /-- The bytes it read are the units that the pool draws. -/
  origin_eq : r.used.map Cell.origin = p.drawn (fun _ ↦ bufferSize) width env.ok c
  /-- The state afterwards is the pool afterwards. -/
  refines : Refines t' (p.next (fun _ ↦ bufferSize) width env.ok c)
  /-- If the bytes to be used were delivered, and a fill that was needed succeeds, then the bytes
  read were delivered, and so are those still to be used. -/
  genuine : Unread env t → (t.Refills c → env.outcome t.calls ≠ none) →
    Unread env t' ∧ ∀ x ∈ r.used, x.Genuine env.outcome

/-- After the preparation there is enough in the buffer. -/
theorem not_exhausted_prepare (env : RandBytes) (p : Pool Call) (c : Call) :
    ¬(p.prepare (fun _ ↦ bufferSize) width env.ok c).Exhausted (fun _ ↦ bufferSize) width c := by
  refine Pool.not_exhausted_prepare ?_
  match c with
  | .random => exact (by decide : 8 ≤ 2048)
  | .uuid => exact (by decide : 16 ≤ 2048)

/-- The bytes that the next call reads. -/
def Thread.chunk (t : Thread) (c : Call) : List (Cell (BitVec 8)) :=
  ((t.buffer c).buffered.drop (unit c * (t.buffer c).bufferedIdx)).take (width c)

/-- A call that uses its chunk and changes nothing behind it. -/
theorem Refines.stepSpec (h : Refines t p) {r : Result} {b : Prefetched}
    (hstep : step env t c = some (r, (t.prepare env c).set c b))
    (hused : r.used = (t.prepare env c).chunk c) (hwf : r.WellFormed)
    (horigin : b.buffered.map Cell.origin = ((t.prepare env c).buffer c).buffered.map Cell.origin)
    (hidx : unit c * b.bufferedIdx = unit c * ((t.prepare env c).buffer c).bufferedIdx + width c)
    (hrest : b.buffered.drop (unit c * b.bufferedIdx) =
      ((t.prepare env c).buffer c).buffered.drop (unit c * b.bufferedIdx)) :
    StepSpec env t p c r ((t.prepare env c).set c b) where
  step_eq := hstep
  wellFormed := hwf
  origin_eq := by
    rw [hused]
    exact (h.prepare env c).map_origin_take (not_exhausted_prepare env p c)
  refines := (h.prepare env c).advance (not_exhausted_prepare env p c) horigin hidx
  genuine hunread hok := by
    refine ⟨(hunread.prepare hok).advance (by rw [hrest, hidx]), fun x hx ↦ ?_⟩
    rw [hused] at hx
    exact hunread.prepare hok c x (List.mem_of_mem_take hx)

/-- The chunk is inside the buffer, whatever has been written over it. -/
theorem Refines.readCells_chunk (h : Refines t p) (env : RandBytes) (c : Call)
    {cells : List (Cell (BitVec 8))}
    (hlen : cells.length = bufferSize) :
    readCells cells (unit c * ((t.prepare env c).buffer c).bufferedIdx) (width c) =
      some ((cells.drop (unit c * ((t.prepare env c).buffer c).bufferedIdx)).take (width c)) :=
  (h.prepare env c).readCells_eq (not_exhausted_prepare env p c) hlen

/-- A chunk has as many bytes as the call uses. -/
theorem Refines.length_chunk (h : Refines t p) (env : RandBytes) (c : Call) :
    ((t.prepare env c).chunk c).length = width c := by
  have hlen := congrArg List.length ((h.prepare env c).map_origin_take
    (not_exhausted_prepare env p c))
  rwa [List.length_map, units, List.length_map, List.length_range'] at hlen

/-- What `random()` does. -/
theorem Refines.random_spec (h : Refines t p) (env : RandBytes) :
    ∃ r t', StepSpec env t p .random r t' := by
  have hread := h.readCells_chunk env .random ((h.prepare env .random).length_eq .random)
  have hstep : step env t .random = some
      (⟨.number (.ofNat 64 (numberOf (((t.prepare env .random).chunk .random).map Cell.value))),
        (t.prepare env .random).chunk .random⟩,
        (t.prepare env .random).set .random ⟨((t.prepare env .random).buffer .random).buffered,
          ((t.prepare env .random).buffer .random).bufferedIdx + 1⟩) := by
    show (readCells ((t.prepare env .random).buffer .random).buffered
      (8 * ((t.prepare env .random).buffer .random).bufferedIdx) 8).bind _ = _
    exact congrArg (Option.bind · _) hread
  exact ⟨_, _, h.stepSpec hstep rfl ⟨h.length_chunk env .random, rfl⟩ rfl (Nat.mul_succ _ _) rfl⟩

/-- The chunk of `uuid()` has sixteen bytes. -/
theorem Refines.length_value_chunk (h : Refines t p) (env : RandBytes) :
    (((t.prepare env .uuid).chunk .uuid).map Cell.value).length = 16 := by
  rw [List.length_map, h.length_chunk]
  rfl

/-- A call of `uuid()` marks two bytes of its chunk in the buffer and writes the marked chunk. -/
theorem Refines.step_uuid (h : Refines t p) (env : RandBytes) :
    step env t .uuid = some
      (⟨.text (dashed (stamped (((t.prepare env .uuid).chunk .uuid).map Cell.value))),
        (t.prepare env .uuid).chunk .uuid⟩,
        (t.prepare env .uuid).set .uuid
          ⟨mark ((t.prepare env .uuid).buffer .uuid).buffered
            ((t.prepare env .uuid).buffer .uuid).bufferedIdx,
            ((t.prepare env .uuid).buffer .uuid).bufferedIdx + 16⟩) := by
  have hlen := (h.prepare env .uuid).length_eq .uuid
  have hread := h.readCells_chunk env .uuid hlen
  have hread' := h.readCells_chunk env .uuid
    (length_mark (i := ((t.prepare env .uuid).buffer .uuid).bufferedIdx) |>.trans hlen)
  have htext : uuidText (stamped (((t.prepare env .uuid).chunk .uuid).map Cell.value)) =
      some (dashed (stamped (((t.prepare env .uuid).chunk .uuid).map Cell.value))) := by
    refine uuidText_eq ?_
    rw [stamped, List.length_modify, List.length_modify, h.length_value_chunk env]
  have hunit : ∀ idx, unit .uuid * idx = idx := Nat.one_mul
  have hchunk : (t.prepare env .uuid).chunk .uuid =
      (((t.prepare env .uuid).buffer .uuid).buffered.drop
        ((t.prepare env .uuid).buffer .uuid).bufferedIdx).take 16 := by
    rw [Thread.chunk, hunit]
    rfl
  rw [hunit] at hread hread'
  rw [hchunk, ← map_value_mark] at htext
  show (readCells ((t.prepare env .uuid).buffer .uuid).buffered
    ((t.prepare env .uuid).buffer .uuid).bufferedIdx (width .uuid)).bind _ = _
  rw [hread, Option.bind_some]
  show (readCells (mark ((t.prepare env .uuid).buffer .uuid).buffered
    ((t.prepare env .uuid).buffer .uuid).bufferedIdx)
    ((t.prepare env .uuid).buffer .uuid).bufferedIdx (width .uuid)).bind _ = _
  rw [hread', Option.bind_some]
  show (uuidText ((((mark _ _).drop _).take 16).map Cell.value)).bind _ = _
  rw [htext, Option.bind_some, hchunk, ← map_value_mark]
  rfl

/-- What `uuid()` does. -/
theorem Refines.uuid_spec (h : Refines t p) (env : RandBytes) :
    ∃ r t', StepSpec env t p .uuid r t' := by
  have hunit : ∀ idx, unit .uuid * idx = idx := Nat.one_mul
  refine ⟨_, _, h.stepSpec (h.step_uuid env) rfl
    ⟨h.length_chunk env .uuid, isUuid_dashed (h.length_value_chunk env)⟩ map_origin_mark ?_ ?_⟩
  · show unit .uuid * (_ + 16) = unit .uuid * _ + 16
    rw [hunit, hunit]
  · show (mark _ _).drop (unit .uuid * (_ + 16)) = _
    rw [hunit]
    exact drop_mark

/-- Every call returns, and does what its function should. -/
theorem Refines.exists_step (h : Refines t p) (env : RandBytes) (c : Call) :
    ∃ r t', StepSpec env t p c r t' := by
  match c with
  | .random => exact h.random_spec env
  | .uuid => exact h.uuid_spec env

/-- What a run does, in terms of the pool. -/
structure RunSpec (env : RandBytes) (t : Thread) (p : Pool Call) (cs : List Call) (rs : List Result)
    (t' : Thread) : Prop where
  /-- All calls return. -/
  run_eq : run env t cs = some (rs, t')
  /-- All results have the form they should have. -/
  wellFormed : ∀ r ∈ rs, r.WellFormed
  /-- The bytes read are the units that the pool draws, one call behind the other. -/
  origin_eq : (rs.flatMap Result.used).map Cell.origin = p.run (fun _ ↦ bufferSize) width env.ok cs
  /-- The state afterwards is again that of a pool. -/
  refines : ∃ p', Refines t' p'
  /-- The fills of the thread succeed exactly if those of the pool do. -/
  succeeds_iff : RefillsSucceed env t cs ↔ p.Succeeds (fun _ ↦ bufferSize) width env.ok cs
  /-- Without a failed fill all bytes read were delivered. -/
  genuine : Unread env t → RefillsSucceed env t cs →
    ∀ x ∈ rs.flatMap Result.used, x.Genuine env.outcome

/-- Every fill of a run succeeds if that of its first call does and those of the rest do. -/
theorem refillsSucceed_cons (cs : List Call) {r : Result} {t₁ : Thread}
    (h : step env t c = some (r, t₁)) :
    RefillsSucceed env t (c :: cs) ↔
      (t.Refills c → env.outcome t.calls ≠ none) ∧ RefillsSucceed env t₁ cs := by
  rw [RefillsSucceed]
  constructor
  · exact fun hall ↦ ⟨hall.1, hall.2 r t₁ h⟩
  · rintro ⟨hfirst, hall⟩
    refine ⟨hfirst, fun r' t'' heq ↦ ?_⟩
    rw [h, Option.some_inj, Prod.mk.injEq] at heq
    rwa [← heq.2]

/-- Every run returns, and is a run of the pool. -/
theorem Refines.exists_run (h : Refines t p) (env : RandBytes) (cs : List Call) :
    ∃ rs t', RunSpec env t p cs rs t' := by
  induction cs generalizing t p with
  | nil =>
    exact ⟨[], t, rfl, fun _ hr ↦ absurd hr List.not_mem_nil, rfl, ⟨p, h⟩, Iff.rfl,
      fun _ _ _ hx ↦ absurd hx List.not_mem_nil⟩
  | cons c cs ih =>
    obtain ⟨r, t₁, hstep⟩ := h.exists_step env c
    obtain ⟨rs, t', hrun⟩ := ih hstep.refines
    have hok : (t.Refills c → env.outcome t.calls ≠ none) ↔
        (p.Exhausted (fun _ ↦ bufferSize) width c → env.ok p.fills = true) := by
      rw [h.refills_iff, h.fills_eq, RandBytes.ok, Option.isSome_iff_ne_none]
    have hrest := refillsSucceed_cons cs hstep.step_eq
    refine ⟨r :: rs, t', ?_, ?_, ?_, hrun.refines, ?_, ?_⟩
    · rw [run, hstep.step_eq, Option.bind_eq_bind, Option.bind_some]
      show (run env t₁ cs).bind _ = _
      rw [hrun.run_eq]
      rfl
    · exact List.forall_mem_cons.2 ⟨hstep.wellFormed, hrun.wellFormed⟩
    · rw [List.flatMap_cons, List.map_append, hstep.origin_eq, hrun.origin_eq]
      rfl
    · rw [hrest, hok, hrun.succeeds_iff]
      rfl
    · intro hunread hall x hx
      obtain ⟨hfirst, hall⟩ := hrest.1 hall
      obtain ⟨hunread', hused⟩ := hstep.genuine hunread hfirst
      rw [List.flatMap_cons, List.mem_append] at hx
      exact hx.elim (hused x) (hrun.genuine hunread' hall x)

/-- The indices are inside the buffers wherever there is a pool. -/
theorem Refines.inBounds (h : Refines t p) : t.InBounds := by
  have hrandom := h.pos_le .random
  have huuid := h.pos_le .uuid
  rw [h.pos_eq] at hrandom huuid
  simp only [bufferSize, unit] at hrandom huuid
  simp only [Thread.InBounds, prefetch, bufferSize]
  omega

/-- Every call of a run returns, with its index inside the buffer and a result that has the form it
should have. All bytes used are bytes of a successful `RAND_bytes`, and no byte is used twice,
exactly when no refill of the run fails. -/
theorem run_fresh_iff (env : RandBytes) (cs : List Call) :
    ∃ rs t, run env start cs = some (rs, t) ∧ t.InBounds ∧ (∀ r ∈ rs, r.WellFormed) ∧
      ((∀ x ∈ rs.flatMap Result.used, x.Genuine env.outcome) ∧
        ((rs.flatMap Result.used).map Cell.origin).Nodup ↔ RefillsSucceed env start cs) := by
  obtain ⟨rs, t, hrun⟩ := refines_start.exists_run env cs
  obtain ⟨p, hp⟩ := hrun.refines
  have hfresh := Pool.fresh_run_iff (fun _ ↦ bufferSize) width env.ok
    (fun c ↦ by match c with
      | .random => exact (by decide : 8 ≤ 2048)
      | .uuid => exact (by decide : 16 ≤ 2048))
    (fun c ↦ by match c with
      | .random => exact (by decide : 0 < 8)
      | .uuid => exact (by decide : 0 < 16)) cs
  refine ⟨rs, t, hrun.run_eq, hp.inBounds, hrun.wellFormed, ?_⟩
  rw [hrun.succeeds_iff, ← hfresh, ← hrun.origin_eq]
  constructor
  · rintro ⟨hgenuine, hnodup⟩
    refine ⟨fun hnone ↦ ?_, hnodup⟩
    obtain ⟨x, hx, horigin⟩ := List.mem_map.1 hnone
    obtain ⟨n, k, bytes, hsome, -, -⟩ := hgenuine x hx
    rw [hsome] at horigin
    exact Option.some_ne_none _ horigin
  · intro h
    refine ⟨hrun.genuine unread_start ?_, h.nodup⟩
    rw [hrun.succeeds_iff, ← hfresh, ← hrun.origin_eq]
    exact h

/-- A `RAND_bytes` that never succeeds. -/
def alwaysFails : RandBytes where
  outcome _ := none
  length_eq _ _ h := absurd h.symm (Option.some_ne_none _)

/-- The first number of a thread whose first `RAND_bytes` fails is made of bytes that nothing
delivered. -/
theorem run_alwaysFails : ∃ rs t, run alwaysFails start [.random] = some (rs, t) ∧
    ∃ x ∈ rs.flatMap Result.used, ¬x.Genuine alwaysFails.outcome := by
  obtain ⟨rs, t, hrun⟩ := refines_start.exists_run alwaysFails [.random]
  have hrun_eq : (Pool.start fun _ ↦ bufferSize).run (fun _ ↦ bufferSize) width alwaysFails.ok
    [.random] =
      units none 0 8 := by decide
  have hnone : none ∈ (rs.flatMap Result.used).map Cell.origin := by
    rw [hrun.origin_eq, hrun_eq]
    decide
  obtain ⟨x, hx, horigin⟩ := List.mem_map.1 hnone
  refine ⟨rs, t, hrun.run_eq, x, hx, ?_⟩
  rintro ⟨n, k, bytes, hsome, -, -⟩
  rw [hsome] at horigin
  exact Option.some_ne_none _ horigin

end TcpServer.Random
