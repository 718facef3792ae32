import SpacePony.Packages.Buffered.ReaderFlat

/-!
# Packages — buffered — Writer

`writer.pony`: integers and byte sequences, kept as a list of chunks and a current buffer that small
writes go to.  What was written since the last `done()` is counted, comes out in the order of the
calls, and is read back by the matching calls of a reader (`writer_round_trip`), as long as the
count does not wrap (`size_wraps`).
-/

namespace SpacePony.Buffered

open List Endian Pieces Raise

section
variable [Target]

/-- `class Writer`. -/
structure Writer where
  chunks : List Bytes := []
  current : Bytes := []
  size : Nat := 0
deriving DecidableEq

namespace Writer

/-- `Writer._append_current`. -/
def appendCurrent (w : Writer) : Writer :=
  if w.current.length > 0 then { w with chunks := w.chunks ++ [w.current], current := [] } else w

/-- `Array.push_u16` and its siblings on the current buffer: the bytes of the integer as it stands
in memory. -/
def pushNative (target : ByteOrder) {n : Nat} (x : BitVec (8 * n)) (w : Writer) : Writer :=
  { w with current := w.current ++ toBytes target x, size := (w.size + n) % usize }

/-- `Writer.u8`. -/
def u8 (data : Byte) (w : Writer) : Writer :=
  { w with current := w.current ++ [data], size := (w.size + 1) % usize }

/-- The writes of an integer of `n` bytes. -/
def writeUint (target order : ByteOrder) {n : Nat} (data : BitVec (8 * n)) (w : Writer) : Writer :=
  w.pushNative target (convert order target data)

section
variable (target : ByteOrder)

def u16Be (data : BitVec 16) : Writer → Writer := writeUint target .be (n := 2) data
def u16Le (data : BitVec 16) : Writer → Writer := writeUint target .le (n := 2) data
def u32Be (data : BitVec 32) : Writer → Writer := writeUint target .be (n := 4) data
def u32Le (data : BitVec 32) : Writer → Writer := writeUint target .le (n := 4) data
def u64Be (data : BitVec 64) : Writer → Writer := writeUint target .be (n := 8) data
def u64Le (data : BitVec 64) : Writer → Writer := writeUint target .le (n := 8) data
def u128Be (data : BitVec 128) : Writer → Writer := writeUint target .be (n := 16) data
def u128Le (data : BitVec 128) : Writer → Writer := writeUint target .le (n := 16) data

end

/-- `Writer.write`. -/
def write (data : Bytes) (w : Writer) : Writer :=
  -- a sequence of one cache line or less is copied into the current buffer
  if data.length ≤ 64 then
    { w with current := w.current ++ data, size := (w.size + data.length) % usize }
  else
    let w := w.appendCurrent
    { w with chunks := w.chunks ++ [data], size := (w.size + data.length) % usize }

/-- `Writer.writev`. -/
def writev (data : List Bytes) (w : Writer) : Writer := data.foldl (fun w chunk => w.write chunk) w

/-- `Writer.done`: the chunks, and the writer after it. -/
def done (w : Writer) : List Bytes × Writer :=
  let w := w.appendCurrent
  (w.chunks, { w with size := 0, chunks := [] })

end Writer

/-- A call of a method of the writer; a signed integer is given by its bits. -/
inductive WriteOp where
  | u8 (data : Byte)
  | uint (signed : Bool) (order : ByteOrder) (w : Width) (data : BitVec (8 * w.bytes))
  | write (data : Bytes)
  | writev (data : List Bytes)
  | done

namespace WriteOp

/-- The writes of wider integers, each under its name. -/
def writeBits (target : ByteOrder) :
    (order : ByteOrder) → (w : Width) → BitVec (8 * w.bytes) → Writer → Writer
  | .be, .w16, data => Writer.u16Be target data
  | .le, .w16, data => Writer.u16Le target data
  | .be, .w32, data => Writer.u32Be target data
  | .le, .w32, data => Writer.u32Le target data
  | .be, .w64, data => Writer.u64Be target data
  | .le, .w64, data => Writer.u64Le target data
  | .be, .w128, data => Writer.u128Be target data
  | .le, .w128, data => Writer.u128Le target data

/-- What a call does. -/
def exec (target : ByteOrder) : WriteOp → Writer → Writer
  | .u8 data, w => w.u8 data
  | .uint _ order width data, w => writeBits target order width data w
  | .write data, w => w.write data
  | .writev data, w => w.writev data
  | .done, w => w.done.2

/-- The bytes that a call writes. -/
def encode : WriteOp → Bytes
  | .u8 data => [data]
  | .uint _ order _ data => toBytes order data
  | .write data => data
  | .writev data => data.flatten
  | .done => []

/-- The calls of a reader that take these bytes. -/
def reads : WriteOp → List Op
  | .u8 _ => [.byte false]
  | .uint signed order w _ => [.read signed order w]
  | .write data => [.block data.length]
  | .writev data => data.map fun chunk => .block chunk.length
  | .done => []

/-- The values that these calls are to return. -/
def values : WriteOp → List (Option Res)
  | .u8 data => [some (.uint 8 data)]
  | .uint signed _ _ data => [some (Res.ofBits signed data)]
  | .write data => [some (.bytes data)]
  | .writev data => data.map fun chunk => some (.bytes chunk)
  | .done => []

end WriteOp

/-- The calls since the last `done()`. -/
def sinceDone : List WriteOp → List WriteOp
  | ops => ops.foldl (fun since op => match op with | .done => [] | op => since ++ [op]) []

/-- The bytes that calls write, in their order. -/
def encodeAll (ops : List WriteOp) : Bytes := ops.flatMap WriteOp.encode

/-! ### What a writer holds -/

namespace Writer

/-- The bytes that a writer holds. -/
def pending (w : Writer) : Bytes := w.chunks.flatten ++ w.current

/-- The writer holds the bytes `bs`: no chunk is empty, and the count is right up to its width. -/
structure Holds (w : Writer) (bs : Bytes) : Prop where
  pending : w.pending = bs
  nonempty : ∀ c ∈ w.chunks, c ≠ []
  size : w.size = bs.length % usize

section
variable {w : Writer} {bs : Bytes}

theorem holds_create : Holds { } [] := ⟨rfl, fun _ hc => absurd hc not_mem_nil, rfl⟩

theorem Holds.appendCurrent (h : w.Holds bs) :
    w.appendCurrent.Holds bs ∧ w.appendCurrent.current = [] := by
  rw [Writer.appendCurrent]
  split
  next hpos =>
    refine ⟨⟨?_, fun c hc => ?_, h.size⟩, rfl⟩
    · rw [← h.pending, Writer.pending, Writer.pending, flatten_append, append_nil,
        flatten_singleton]
    rcases mem_append.1 hc with hc | hc
    · exact h.nonempty c hc
    · rw [mem_singleton.1 hc]
      exact ne_nil_of_length_pos hpos
  next hzero => exact ⟨h, length_eq_zero_iff.1 (by omega)⟩

/-- Bytes that go to the current buffer. -/
theorem Holds.push (h : w.Holds bs) (data : Bytes) :
    Holds { w with current := w.current ++ data, size := (w.size + data.length) % usize }
      (bs ++ data) := by
  refine ⟨?_, h.nonempty, ?_⟩
  · rw [← h.pending, Writer.pending, Writer.pending, append_assoc]
  · show (w.size + data.length) % usize = _
    rw [h.size, length_append, Nat.mod_add_mod]

theorem Holds.write (h : w.Holds bs) (data : Bytes) : (w.write data).Holds (bs ++ data) := by
  rw [Writer.write]
  split
  next => exact h.push data
  next hlarge =>
    obtain ⟨happ, hcur⟩ := h.appendCurrent
    refine ⟨?_, fun c hc => ?_, ?_⟩
    · rw [← happ.pending, Writer.pending, Writer.pending]
      simp only [hcur, flatten_append, flatten_singleton, append_nil]
    · rcases mem_append.1 hc with hc | hc
      · exact happ.nonempty c hc
      · rw [mem_singleton.1 hc]
        exact ne_nil_of_length_pos (by omega)
    · show (w.appendCurrent.size + data.length) % usize = _
      rw [happ.size, length_append, Nat.mod_add_mod]

theorem Holds.writev (h : w.Holds bs) (data : List Bytes) :
    (w.writev data).Holds (bs ++ data.flatten) := by
  induction data generalizing w bs with
  | nil => rwa [flatten_nil, append_nil]
  | cons chunk data ih =>
    rw [flatten_cons, ← append_assoc]
    exact ih (h.write chunk)

theorem Holds.writeUint (target order : ByteOrder) {n : Nat} (h : w.Holds bs)
    (data : BitVec (8 * n)) : (w.writeUint target order data).Holds (bs ++ toBytes order data) := by
  have hpush := h.push (toBytes target (convert order target data))
  rw [toBytes_convert, length_toBytes] at hpush
  rw [Writer.writeUint, pushNative, toBytes_convert]
  exact hpush

/-- The chunks that `done()` returns are the bytes, and the writer is as it was created. -/
theorem Holds.done (h : w.Holds bs) :
    w.done.1.flatten = bs ∧ (∀ c ∈ w.done.1, c ≠ []) ∧ w.done.2 = { } := by
  obtain ⟨happ, hcur⟩ := h.appendCurrent
  refine ⟨?_, happ.nonempty, ?_⟩
  · rw [← happ.pending, Writer.pending, hcur, append_nil]
    rfl
  · rw [Writer.done]
    simp only [hcur]

end

end Writer

theorem WriteOp.writeBits_eq (target order : ByteOrder) (width : Width)
    (data : BitVec (8 * width.bytes)) (w : Writer) :
    WriteOp.writeBits target order width data w = w.writeUint target order data := by
  cases order <;> cases width <;> rfl

/-- Calls one after the other. -/
def writeAll (target : ByteOrder) (ops : List WriteOp) (w : Writer) : Writer :=
  ops.foldl (fun w op => op.exec target w) w

omit [Target] in
theorem sinceDone_snoc (ops : List WriteOp) (op : WriteOp) :
    sinceDone (ops ++ [op]) = match op with | .done => [] | op => sinceDone ops ++ [op] := by
  rw [sinceDone, foldl_append]
  rfl

/-- A writer holds what was written since the last `done()`. -/
theorem writeAll_holds (target : ByteOrder) (ops : List WriteOp) :
    (writeAll target ops { }).Holds (encodeAll (sinceDone ops)) := by
  induction ops using reverseRecOn with
  | nil => exact Writer.holds_create
  | append_singleton ops op ih =>
    have hsnoc : writeAll target (ops ++ [op]) { } = op.exec target (writeAll target ops { }) := by
      rw [writeAll, foldl_append]
      rfl
    rw [hsnoc, sinceDone_snoc]
    cases op with
    | u8 data =>
      rw [encodeAll, flatMap_append]
      exact ih.push [data]
    | uint signed order width data =>
      rw [encodeAll, flatMap_append, WriteOp.exec, WriteOp.writeBits_eq, flatMap_singleton]
      exact ih.writeUint target order data
    | write data =>
      rw [encodeAll, flatMap_append, flatMap_singleton]
      exact ih.write data
    | writev data =>
      rw [encodeAll, flatMap_append, flatMap_singleton]
      exact ih.writev data
    | done =>
      rw [WriteOp.exec, ih.done.2.2]
      exact Writer.holds_create

/-! ### Reading back -/

/-- No chunk is empty. -/
def Reader.NoEmpty (r : Reader) : Prop := ∀ k, emptyAt r.chunks k = false

/-- The calls that take a number of bytes that is known before. -/
def Op.Takes : Op → Prop
  | .byte _ | .read _ _ _ | .block _ => True
  | _ => False

section
variable {target : ByteOrder} {r : Reader} {op : Op}

omit [Target] in
theorem Reader.NoEmpty.advanced (h : r.NoEmpty) (n : Nat) : (r.advanced n).NoEmpty :=
  fun k => Reader.emptyAt_advanced (h (n + k))

theorem Op.Takes.fine (ht : op.Takes) (h : r.NoEmpty) : r.Fine op := by
  cases op with
  | byte signed => exact fun _ => h 0
  | read signed order w => exact fun _ _ k _ => h k
  | block len => trivial
  | append | clear | skip | readUntil | line | peekByte | peek => exact ht.elim

theorem Op.exec_of_ends {Q : Reader → Prop} (h : Ends (op.run target) (fun _ => Q) (fun _ => Q) r) :
    Q (op.exec target r).2 := by
  unfold Ends at h
  unfold Op.exec
  split
  all_goals
    rename_i heq
    rw [heq] at h
    exact h

/-- After such a call no chunk is empty. -/
theorem Op.Takes.noEmpty (ht : op.Takes) (hinv : r.Inv) (h : r.NoEmpty) :
    (op.exec target r).2.NoEmpty := by
  refine Op.exec_of_ends (Q := Reader.NoEmpty) ?_
  cases op with
  | byte signed =>
    have hu8 : Ends Reader.u8 (fun _ => Reader.NoEmpty) (fun _ => Reader.NoEmpty) r := by
      refine (Reader.u8_ends hinv fun _ => h 0).mono ?_ ?_
      · rintro b r' ⟨-, rfl⟩
        exact h.advanced 1
      · rintro - r' ⟨-, rfl⟩
        exact h
    cases signed with
    | false => exact ends_map hu8
    | true => exact ends_map (ends_bind (hu8.mono (fun _ _ hr => ends_pure hr) fun _ _ hr => hr))
  | read signed order w =>
    rw [Op.run, Op.readBits_eq]
    refine ends_map ((Reader.readUint_ends hinv w.bytes_pos fun _ _ k _ => h k).mono ?_ ?_)
    · rintro x r' ⟨-, -, rfl⟩
      exact h.advanced _
    · rintro - r' ⟨-, rfl⟩
      exact h
  | block len =>
    refine ends_map ((Reader.block_ends hinv).mono ?_ ?_)
    · rintro out r' ⟨-, -, rfl⟩
      exact h.advanced len
    · rintro - r' ⟨-, rfl⟩
      exact h
  | append | clear | skip | readUntil | line | peekByte | peek => exact ht.elim

variable (target) in
theorem allFine_of_takes {ops : List Op} (ht : ∀ op ∈ ops, op.Takes) (hinv : r.Inv)
    (h : r.NoEmpty) : AllFine target ops r := by
  induction ops generalizing r with
  | nil => trivial
  | cons op ops ih =>
    have hop : op.Takes := ht op (.head _)
    exact ⟨hop.fine h, ih (fun o ho => ht o (.tail _ ho))
      (Op.exec_eq target hinv (hop.fine h)).2 (hop.noEmpty hinv h)⟩

theorem execAll_append (ops₁ ops₂ : List Op) : execAll target (ops₁ ++ ops₂) r =
      ((execAll target ops₁ r).1 ++ (execAll target ops₂ (execAll target ops₁ r).2).1,
        (execAll target ops₂ (execAll target ops₁ r).2).2) := by
  induction ops₁ generalizing r with
  | nil => rfl
  | cons op ops₁ ih => simp only [cons_append, execAll, ih]

omit [Target] in
theorem flatAll_append (ops₁ ops₂ : List Op) (bs : Bytes) : flatAll (ops₁ ++ ops₂) bs =
      ((flatAll ops₁ bs).1 ++ (flatAll ops₂ (flatAll ops₁ bs).2).1,
        (flatAll ops₂ (flatAll ops₁ bs).2).2) := by
  induction ops₁ generalizing bs with
  | nil => rfl
  | cons op ops₁ ih => simp only [cons_append, flatAll, ih]

variable (target) in
/-- Chunks appended to a reader one after the other. -/
theorem execAll_chunks {cs : List Bytes} (hinv : r.Inv)
    (hfit : r.unread.length + cs.flatten.length < usize) :
    (execAll target (cs.map .append) r).1 = cs.map (fun _ => some .none) ∧
    (execAll target (cs.map .append) r).2.Inv ∧
    (execAll target (cs.map .append) r).2.unread = r.unread ++ cs.flatten ∧
    (execAll target (cs.map .append) r).2.chunks = r.chunks ++ cs.map (·, 0) := by
  induction cs generalizing r with
  | nil => exact ⟨rfl, hinv, by simp [execAll], by simp [execAll]⟩
  | cons c cs ih =>
    rw [flatten_cons, length_append] at hfit
    obtain ⟨hinv', hrest⟩ := hinv.append c (by omega)
    generalize hr' : (Reader.mk (r.chunks ++ [(c, 0)]) ((r.available + c.length) % usize)) = r'
      at hinv'
    have hunread : r'.unread = r.unread ++ c := by
      rw [← hr']
      exact hrest
    have hexec : (Op.append c).exec target r = (some .none, r') := by
      rw [← hr']
      rfl
    obtain ⟨hres, hinvs, hrests, hchunks⟩ := ih hinv'
      (by rw [hunread, length_append]; omega)
    simp only [map_cons, execAll, hexec]
    refine ⟨by rw [hres], hinvs, ?_, ?_⟩
    · rw [hrests, hunread, flatten_cons, append_assoc]
    · rw [hchunks, ← hr', append_assoc]
      rfl

end

omit [Target] in
theorem takeBytes_append (as bs : Bytes) : takeBytes as.length (as ++ bs) = some (as, bs) := by
  rw [takeBytes, if_pos (by rw [length_append]; omega), take_left, drop_left]

omit [Target] in
theorem flat_block (data bs : Bytes) :
    (Op.block data.length).flat (data ++ bs) = (some (.bytes data), bs) := by
  rw [Op.flat, takeBytes_append]
  rfl

omit [Target] in
theorem flatAll_blocks (data : List Bytes) (bs : Bytes) :
    flatAll (data.map fun chunk => .block chunk.length) (data.flatten ++ bs) =
      (data.map fun chunk => some (.bytes chunk), bs) := by
  induction data with
  | nil => rfl
  | cons chunk data ih =>
    simp only [map_cons, flatten_cons, append_assoc, flatAll, flat_block, ih]

omit [Target] in
/-- The matching calls take from the flat array what a call wrote. -/
theorem WriteOp.flatAll_reads (op : WriteOp) (bs : Bytes) :
    flatAll op.reads (op.encode ++ bs) = (op.values, bs) := by
  cases op with
  | u8 data =>
    have htake : takeBytes 1 ([data] ++ bs) = some ([data], bs) := takeBytes_append [data] bs
    have hval : ofLe 1 [data] = data := ofBytes_singleton .le data
    simp only [reads, encode, values, flatAll, Op.flat, htake, consume, hval]
    rfl
  | uint signed order w data =>
    have htake : takeBytes w.bytes (toBytes order data ++ bs) = some (toBytes order data, bs) := by
      rw [← takeBytes_append, length_toBytes]
    simp only [reads, encode, values, flatAll, Op.flat, htake, consume, ofBytes_toBytes]
  | write data => simp only [reads, encode, values, flatAll, flat_block]
  | writev data => exact flatAll_blocks data bs
  | done => rfl

omit [Target] in
theorem flatAll_matching (ops : List WriteOp) (bs : Bytes) :
    flatAll (ops.flatMap WriteOp.reads) (encodeAll ops ++ bs) = (ops.flatMap WriteOp.values, bs) := by
  induction ops with
  | nil => rfl
  | cons op ops ih =>
    rw [encodeAll] at ih ⊢
    simp only [flatMap_cons, append_assoc, flatAll_append, op.flatAll_reads, ih]

omit [Target] in
theorem takes_of_mem_reads {ops : List WriteOp} {op : Op}
    (h : op ∈ ops.flatMap WriteOp.reads) : op.Takes := by
  obtain ⟨w, -, hw⟩ := mem_flatMap.1 h
  cases w with
  | u8 | uint | write =>
    rw [mem_singleton.1 hw]
    trivial
  | writev data =>
    obtain ⟨chunk, -, rfl⟩ := mem_map.1 hw
    trivial
  | done => cases hw

/-- What a reader returns for the chunks and the matching reads. -/
def readBack (target : ByteOrder) (cs : List Bytes) (ops : List WriteOp) :
    List (Option Res) × Reader :=
  execAll target (cs.map .append ++ ops.flatMap WriteOp.reads) { }

/-- **Writer and reader round-trip.**  After any calls, `done()` among them, the chunks of `done()`
are the encodings of the calls since the last `done()`, in their order.  When these are less than
`usize` bytes, `size()` is their number, and a reader that is given the chunks returns the values
of the calls in order and is empty then. -/
theorem writer_round_trip (target : ByteOrder) (ops : List WriteOp) :
    (writeAll target ops { }).done.1.flatten = encodeAll (sinceDone ops) ∧
    ((encodeAll (sinceDone ops)).length < usize →
      (writeAll target ops { }).size = (encodeAll (sinceDone ops)).length ∧
      (readBack target (writeAll target ops { }).done.1 (sinceDone ops)).1 =
        (writeAll target ops { }).done.1.map (fun _ => some .none) ++
          (sinceDone ops).flatMap WriteOp.values ∧
      (readBack target (writeAll target ops { }).done.1 (sinceDone ops)).2.unread = [] ∧
      (readBack target (writeAll target ops { }).done.1 (sinceDone ops)).2.size = 0) := by
  have hholds := writeAll_holds target ops
  obtain ⟨hflat, hne, -⟩ := hholds.done
  refine ⟨hflat, fun hlt => ⟨by rw [hholds.size, Nat.mod_eq_of_lt hlt], ?_⟩⟩
  generalize (writeAll target ops { }).done.1 = cs at hflat hne
  have hfit : ({ } : Reader).unread.length + cs.flatten.length < usize := by
    rw [hflat, show ({ } : Reader).unread.length = 0 from rfl, Nat.zero_add]
    exact hlt
  obtain ⟨hres, hinv, hrest, hchunks⟩ :=
    execAll_chunks target Reader.inv_create hfit
  have hno : (execAll target (cs.map .append) { }).2.NoEmpty := by
    intro k
    rw [hchunks]
    refine emptyAt_eq_false (fun p hp => ?_) k
    obtain ⟨c, hc, rfl⟩ := mem_map.1 hp
    exact (length_pos_of_ne_nil (hne c hc)).ne'
  have htakes : ∀ op ∈ (sinceDone ops).flatMap WriteOp.reads, op.Takes :=
    fun op hop => takes_of_mem_reads hop
  obtain ⟨heq, hinv'⟩ := execAll_eq hinv (allFine_of_takes target htakes hinv hno)
  have hunread : (execAll target (cs.map .append) { }).2.unread = encodeAll (sinceDone ops) ++ [] := by
    rw [hrest, hflat, append_nil]
    rfl
  rw [hunread, flatAll_matching] at heq
  obtain ⟨hvalues, hempty⟩ := Prod.mk.inj heq
  rw [readBack, execAll_append]
  refine ⟨by rw [hres, ← hvalues], hempty.symm, ?_⟩
  show (execAll target _ _).2.available = 0
  rw [hinv'.available, ← hempty]
  rfl

omit [Target] in
theorem length_encodeAll_repeated (n m : Nat) :
    (encodeAll (sinceDone (replicate n (.write (replicate m 0))))).length = n * m := by
  have hsince : sinceDone (replicate n (.write (replicate m 0))) =
      replicate n (.write (replicate m 0)) := by
    induction n with
    | zero => rfl
    | succ n ih => rw [replicate_succ', sinceDone_snoc, ih]
  rw [hsince, encodeAll, length_flatMap, map_replicate, sum_replicate]
  simp [WriteOp.encode]

end

/-! ### Runs on a target of 64 bits -/

section
attribute [local instance] lp64

/-- Two integers, a sequence longer than a cache line, and an integer after it. -/
abbrev threeWrites : List WriteOp :=
  [.write [1, 2], .done, .uint false .be .w16 0x0102, .write (replicate 65 7),
    .uint true .le .w32 0xFFFFFFFF]

/-- A long sequence between two integers is read back with them. -/
theorem writer_round_trip_three_writes : (encodeAll (sinceDone threeWrites)).length < usize ∧
    (writeAll .le threeWrites { }).size = 71 ∧
    (readBack .le (writeAll .le threeWrites { }).done.1 (sinceDone threeWrites)).1 =
      [some .none, some .none, some .none, some (.uint 16 0x0102),
        some (.bytes (replicate 65 7)), some (.int (-1))] := by
  have hlt : (encodeAll (sinceDone threeWrites)).length < usize := by decide
  obtain ⟨hsize, hres, -⟩ := (writer_round_trip .le threeWrites).2 hlt
  exact ⟨hlt, hsize.trans (by decide), hres.trans (by decide)⟩

/-- The count is of 64 bits: after a sequence of `2 ^ 40` bytes is written `2 ^ 24` times, which is
`2 ^ 64` bytes, `size()` is zero. -/
theorem size_wraps :
    (encodeAll (sinceDone (replicate (2 ^ 24) (.write (replicate (2 ^ 40) 0))))).length =
      2 ^ 64 ∧
    (writeAll .le (replicate (2 ^ 24) (.write (replicate (2 ^ 40) 0))) { }).size = 0 := by
  have hlen := length_encodeAll_repeated (2 ^ 24) (2 ^ 40)
  rw [← pow_add] at hlen
  refine ⟨hlen, ?_⟩
  rw [(writeAll_holds .le _).size, hlen]
  exact Nat.mod_self _

end

end SpacePony.Buffered
