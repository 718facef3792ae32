import SpacePony.Packages.Buffered.Reader

/-!
# Packages — buffered — Reader and the flat array

What the calls do on the unconsumed bytes held in one array, and when a reader does the same: in a
run of such calls every call returns what it would on the flat array (`reader_flat`).  Others there
are as well, since a byte behind an empty chunk is not found (`empty_chunk_raises`).
-/

namespace SpacePony.Buffered

open Nat Endian Pieces Raise
open List (length_drop length_append drop_zero length_take take_add idxOf_lt_length_of_mem
  mem_cons_self)

section
variable [Target]

/-! ### The flat array -/

/-- The first `n` bytes, taken off. -/
def takeBytes (n : Nat) (bs : Bytes) : Option (Bytes × Bytes) :=
  if n ≤ bs.length then some (bs.take n, bs.drop n) else none

/-- The bytes before the first `b`, and those after it. -/
def splitAtByte (b : Byte) (bs : Bytes) : Option (Bytes × Bytes) :=
  if b ∈ bs then some (bs.take (bs.idxOf b), bs.drop (bs.idxOf b + 1)) else none

/-- A line without its line break. -/
def chomp (bs : Bytes) : Bytes :=
  if bs.getLast? = some Reader.cr then bs.dropLast else bs

/-- A call that takes bytes from the front, or fails and takes none. -/
def consume {α : Type} (f : α → Res) (bs : Bytes) : Option (α × Bytes) → Option Res × Bytes
  | some (a, rest) => (some (f a), rest)
  | none => (none, bs)

/-- A call on a flat array of bytes: what it returns, and the bytes after it. -/
def Op.flat : Op → Bytes → Option Res × Bytes
  | .append data, bs => (some .none, bs ++ data)
  | .clear, _ => (some .none, [])
  | .skip n, bs => consume (fun _ => .none) bs (takeBytes n bs)
  | .block len, bs => consume .bytes bs (takeBytes len bs)
  | .readUntil separator, bs => consume .bytes bs (splitAtByte separator bs)
  | .line keepLineBreaks, bs =>
    consume (fun l => .bytes (if keepLineBreaks then l ++ [Reader.lf] else chomp l)) bs
      (splitAtByte Reader.lf bs)
  | .byte signed, bs =>
    consume (fun l => Res.ofBits signed (ofLe 1 l)) bs (takeBytes 1 bs)
  | .read signed order w, bs =>
    consume (fun l => Res.ofBits signed (ofBytes order w.bytes l)) bs (takeBytes w.bytes bs)
  | .peekByte signed offset, bs =>
    ((takeBytes 1 (bs.drop offset)).map fun l => Res.ofBits signed (ofLe 1 l.1), bs)
  | .peek signed order w offset, bs =>
    ((takeBytes w.bytes (bs.drop offset)).map
      fun l => Res.ofBits signed (ofBytes order w.bytes l.1), bs)

variable {b : Byte}

namespace Reader

/-- The bytes that are not consumed yet. -/
def unread (r : Reader) : Bytes := rest r.chunks

/-- The number of bytes of the head chunk that are not consumed yet. -/
def headLeft (r : Reader) : Nat :=
  match r.chunks with
  | [] => 0
  | (data, offset) :: _ => data.length - offset

/-- The number of bytes of the head chunk that are consumed. -/
def headOffset (r : Reader) : Nat :=
  match r.chunks with
  | [] => 0
  | (_, offset) :: _ => offset

/-- The sums of a peek at `n` bytes do not wrap, as far as it looks. -/
def PeekFits (r : Reader) (n offset : Nat) : Prop :=
  ∀ j < n, j = 0 ∨ offset + j ≤ r.unread.length → offset + j + r.headOffset < usize

/-- Before the call: the count of the bytes does not wrap; where bytes are taken one by one, no
empty chunk stands before one of them; and the offset of a peek does not wrap. -/
def Fine (r : Reader) : Op → Prop
  | .append data => r.unread.length + data.length < usize
  | .readUntil separator =>
    separator ∈ r.unread → emptyAt r.chunks (r.unread.idxOf separator) = false
  | .byte _ => 0 < r.unread.length → emptyAt r.chunks 0 = false
  | .read _ _ w =>
    w.bytes ≤ r.unread.length → r.headLeft < w.bytes →
      ∀ k < w.bytes, emptyAt r.chunks k = false
  | .peekByte _ offset => r.PeekFits 1 offset
  | .peek _ _ w offset => r.PeekFits w.bytes offset
  | .clear | .skip _ | .block _ | .line _ => True

instance (r : Reader) (n offset : Nat) : Decidable (r.PeekFits n offset) :=
  inferInstanceAs (Decidable (∀ j < n, _ → _))

instance (r : Reader) : (op : Op) → Decidable (r.Fine op)
  | .append _ => inferInstanceAs (Decidable (_ < _))
  | .readUntil _ | .byte _ => inferInstanceAs (Decidable (_ → _))
  | .read _ _ w => inferInstanceAs (Decidable (_ → _ → ∀ k < w.bytes, _))
  | .peekByte _ _ | .peek _ _ _ _ => inferInstanceAs (Decidable (PeekFits _ _ _))
  | .clear | .skip _ | .block _ | .line _ => inferInstanceAs (Decidable True)

/-- The chunks are consumed from the front, no array is too long, and the count is right. -/
structure Inv (r : Reader) : Prop where
  wf : WF r.chunks
  length_lt : ∀ c ∈ r.chunks, c.1.length < usize
  available : r.available = r.unread.length
  unread_lt : r.unread.length < usize

/-- The reader after `n` more bytes are consumed. -/
def advanced (r : Reader) (n : Nat) : Reader :=
  { chunks := advance r.chunks n, available := r.available - n }

section
variable {r : Reader} {n : Nat}

omit [Target] in
@[simp] theorem unread_advanced : (r.advanced n).unread = r.unread.drop n :=
  rest_advance r.chunks n

omit [Target] in
@[simp] theorem advanced_zero : r.advanced 0 = r := by
  rw [advanced, advance_zero, Nat.sub_zero]

omit [Target] in
theorem advanced_advanced (m n : Nat) : (r.advanced m).advanced n = r.advanced (m + n) := by
  simp only [advanced, advance_advance, Nat.sub_sub]

theorem inv_create : Inv { } := by
  refine ⟨⟨?_, ?_⟩, ?_, rfl, Nat.two_pow_pos _⟩
  all_goals
    intro c hc
    cases hc

theorem Inv.advanced (h : Inv r) (n : Nat) : Inv (r.advanced n) := by
  refine ⟨h.wf.advance n, forall_advance (P := fun xs => xs.length < usize) h.length_lt n, ?_, ?_⟩
  · show r.available - n = (r.advanced n).unread.length
    rw [unread_advanced, length_drop, h.available]
  · rw [unread_advanced, length_drop]
    exact (sub_le _ _).trans_lt h.unread_lt

theorem Inv.append (h : Inv r) (data : Bytes) (hfit : r.unread.length + data.length < usize) :
    Inv { chunks := r.chunks ++ [(data, 0)], available := (r.available + data.length) % usize } ∧
      rest (r.chunks ++ [(data, 0)]) = r.unread ++ data := by
  have hrest : rest (r.chunks ++ [(data, 0)]) = r.unread ++ data := by
    simp [rest_append, unread, Piece.left]
  refine ⟨⟨h.wf.push data, fun c hc => ?_, ?_, ?_⟩, hrest⟩
  · rcases List.mem_append.1 hc with hc | hc
    · exact h.length_lt c hc
    · rw [List.mem_singleton.1 hc]
      exact (le_add_left _ _).trans_lt hfit
  · show (r.available + data.length) % usize = (rest (r.chunks ++ [(data, 0)])).length
    rw [hrest, length_append, h.available, mod_eq_of_lt hfit]
  · show (rest (r.chunks ++ [(data, 0)])).length < usize
    rwa [hrest, length_append]

/-! ### Loops over the chunks -/

variable {cs : List (Piece Byte)} {k o : Nat}

omit [Target] in
theorem skipLoop_ends (hcs : r.chunks = cs) (hn : n ≤ (rest cs).length) :
    Ends (skipLoop cs n) (fun _ r' => r' = { r with chunks := advance cs n }) (fun _ _ => False)
      r := by
  induction cs generalizing r n with
  | nil =>
    obtain rfl : n = 0 := by simpa using hn
    rw [advance_zero]
    exact ends_ite (fun hpos => absurd hpos (lt_irrefl 0)) fun _ => ends_pure (by rw [← hcs])
  | cons c cs ih =>
    refine ends_ite (fun hpos => ends_ite (fun hlt => ?_) fun hle => ?_) fun hzero => ?_
    · rw [advance_of_lt hlt]
      exact ends_modify rfl
    · rw [advance_of_le hpos (by omega)]
      refine ends_bind (ends_modify ?_)
      rw [rest_cons, length_append, length_left] at hn
      exact ih rfl (by omega)
    · obtain rfl : n = 0 := by omega
      rw [advance_zero, ← hcs]
      exact ends_pure rfl

theorem skip_ends (h : Inv r) : Ends (skip n) (fun _ r' => n ≤ r.unread.length ∧ r' = r.advanced n)
    (fun _ r' => ¬ n ≤ r.unread.length ∧ r' = r) r := by
  refine ends_bind (ends_get (ends_ite (fun hle => ?_) fun hlt => ?_))
  · rw [h.available] at hle
    refine ends_bind (ends_set ?_)
    exact (skipLoop_ends (r := { r with available := r.available - n }) rfl hle).mono
      (fun _ r' hr => ⟨hle, hr⟩) fun _ _ hf => hf.elim
  · rw [h.available] at hlt
    exact ends_throw ⟨hlt, rfl⟩

omit [Target] in
/-- The loop of `block` and `line` takes bytes from the front and adds them to the output: `I i out`
says that `out` has the first `i` bytes of `b`. -/
theorem takeLoop_ends {put : Bytes → Bytes → Nat → Nat → Nat → Bytes} {I : Nat → Bytes → Prop}
    {b : Bytes} {len : Nat}
    (hput : ∀ data out offset i k, I i out → k ≤ data.length - offset → i + k ≤ len →
      (data.drop offset).take k = (b.drop i).take k → I (i + k) (put data out offset i k))
    {i : Nat} {out : Bytes} (hcs : r.chunks = cs) (hbs : b.drop i = rest cs) (hi : i ≤ len)
    (hlen : len ≤ b.length) (hI : I i out) : Ends (takeLoop put len cs i out)
      (fun out' r' => I len out' ∧ r' = { r with chunks := advance cs (len - i) })
      (fun _ _ => False) r := by
  induction cs generalizing r i out with
  | nil =>
    have hdone : i = len := by
      have hnil : b.length - i = 0 := by rw [← length_drop, hbs, rest_nil, List.length_nil]
      omega
    subst hdone
    refine ends_ite (fun hlt => absurd hlt (Nat.lt_irrefl i)) fun _ => ends_pure ⟨hI, ?_⟩
    rw [Nat.sub_self, advance_zero, ← hcs]
  | cons c cs ih =>
    obtain ⟨data, offset⟩ := c
    refine ends_ite (fun hlt => ?_) fun hge => ?_
    · rw [rest_cons] at hbs
      -- what is copied from the chunk is what comes next in the sequence
      have hnext : ∀ k ≤ data.length - offset, (data.drop offset).take k = (b.drop i).take k := by
        intro k hk
        rw [hbs, List.take_append_of_le_length (by rwa [length_left])]
        rfl
      refine ends_ite (fun hgt => ends_bind (ends_modify (ends_pure ⟨?_, ?_⟩))) fun hle => ?_
      · have hmin : min (len - i) (data.length - offset) = len - i := by omega
        have hput' := hput data out offset i (len - i) hI (by omega) (by omega)
          (hnext _ (by omega))
        rw [show i + (len - i) = len by omega] at hput'
        rwa [hmin]
      · rw [advance_of_lt hgt]
      have hmin : min (len - i) (data.length - offset) = data.length - offset := by omega
      rw [hmin, advance_of_le (by omega) (by omega), Nat.sub_sub]
      refine ends_bind (ends_modify ?_)
      refine ih (r := { r with chunks := cs }) rfl ?_ (by omega)
        (hput _ _ _ _ _ hI le_rfl (by omega) (hnext _ le_rfl))
      rw [← List.drop_drop, hbs, List.drop_append, length_left, Nat.sub_self, drop_zero,
        List.drop_of_length_le (by rw [length_left]), List.nil_append]
    · obtain rfl : i = len := by omega
      rw [Nat.sub_self, advance_zero, ← hcs]
      exact ends_pure ⟨hI, rfl⟩

omit [Target] in
theorem copyTo_eq {data out bs : Bytes} {offset i len : Nat} (hout : out.length = len)
    (htake : out.take i = bs.take i) (hk : k ≤ data.length - offset) (hik : i + k ≤ len)
    (hbs : (data.drop offset).take k = (bs.drop i).take k) :
    (copyTo data out offset i k).length = len ∧
      (copyTo data out offset i k).take (i + k) = bs.take (i + k) := by
  by_cases hoff : offset < data.length
  · have hmin : min k (data.length - offset) = k := min_eq_left hk
    have hpart : ((data.drop offset).take k).length = k := by rw [length_take, length_drop, hmin]
    have hpre : (out.take i).length = i := by
      rw [length_take]
      omega
    rw [copyTo, if_pos ⟨hoff, by omega⟩]
    simp only [hmin]
    constructor
    · rw [length_append, length_append, hpre, hpart, length_drop]
      omega
    · rw [← List.append_assoc, List.take_left' (by rw [length_append, hpre, hpart]), htake,
        hbs, ← take_add]
  · obtain rfl : k = 0 := by omega
    rw [copyTo, if_neg (fun hc => hoff hc.1), add_zero]
    exact ⟨hout, htake⟩

/-- `block` takes the next `n` bytes, or raises and takes none. -/
theorem block_ends (h : Inv r) : Ends (block n)
    (fun out r' => n ≤ r.unread.length ∧ out = r.unread.take n ∧ r' = r.advanced n)
    (fun _ r' => ¬ n ≤ r.unread.length ∧ r' = r) r := by
  refine ends_bind (ends_get (ends_ite (fun hlt => ?_) fun hle => ?_))
  · rw [h.available] at hlt
    exact ends_throw ⟨by omega, rfl⟩
  rw [h.available, not_lt] at hle
  refine ends_bind (ends_set ?_)
  refine (takeLoop_ends (r := { r with available := r.available - n }) (b := r.unread)
    (I := fun i out => out.length = n ∧ out.take i = r.unread.take i)
    (fun data out offset i k hI hk hik hbs => copyTo_eq hI.1 hI.2 hk hik hbs) rfl rfl
    (zero_le n) hle ⟨List.length_replicate, rfl⟩).mono ?_ fun _ _ hf => hf.elim
  rintro out r' ⟨⟨hlen, htake⟩, hr⟩
  refine ⟨hle, ?_, hr⟩
  rwa [List.take_of_length_le hlen.le] at htake

/-! ### Searching -/

omit [Target] in
theorem find_eq (data : Bytes) (b : Byte) (offset : Nat) : find data b offset =
    if b ∈ data.drop offset then some ((data.drop offset).idxOf b + offset) else none := by
  rw [find]
  by_cases hb : b ∈ data.drop offset
  · have hidx : (data.drop offset).idxOf? b = some ((data.drop offset).idxOf b) := by
      rw [List.idxOf?, List.findIdx?_eq_guard_findIdx_lt, Option.guard_eq_some_iff]
      exact ⟨rfl, decide_eq_true (idxOf_lt_length_of_mem hb)⟩
    rw [if_pos hb, hidx]
    rfl
  · rw [if_neg hb, List.idxOf?_eq_none_iff.2 hb]
    rfl

theorem distanceFrom_eq {m : Nat} (hwf : WF cs) (hlt : ∀ c ∈ cs, c.1.length < usize)
    (hm : m + (rest cs).length < usize) : distanceFrom b cs m =
      if b ∈ rest cs then some (m + (rest cs).idxOf b + 1) else none := by
  induction cs generalizing m with
  | nil => rfl
  | cons c cs ih =>
    obtain ⟨data, offset⟩ := c
    have hoff : offset ≤ data.length := hwf.read_le _ (.head _)
    have hdata : data.length < usize := hlt _ (.head _)
    rw [rest_cons, length_append, length_left] at hm
    rw [distanceFrom, find_eq, rest_cons, Piece.left]
    by_cases hb : b ∈ data.drop offset
    · have hidx : (data.drop offset).idxOf b < data.length - offset := by
        rw [← length_drop]
        exact idxOf_lt_length_of_mem hb
      rw [if_pos hb, if_pos (List.mem_append_left _ hb), List.idxOf_append_of_mem hb]
      have hmod : (m + ((data.drop offset).idxOf b + offset) + 1 + (usize - offset)) % usize =
          m + (data.drop offset).idxOf b + 1 := by
        rw [show m + ((data.drop offset).idxOf b + offset) + 1 + (usize - offset) =
          m + (data.drop offset).idxOf b + 1 + usize by omega, add_mod_right,
          mod_eq_of_lt (by omega)]
      simp only [hmod]
    rw [if_neg hb]
    simp only [List.mem_append, hb, false_or, List.idxOf_append_of_notMem hb, length_drop]
    rw [mod_eq_of_lt (by omega), ih hwf.tail (fun c hc => hlt c (.tail _ hc))
      (by omega), add_assoc m]

theorem distanceOf_ends (h : Inv r) (b : Byte) : Ends (distanceOf b)
    (fun len r' => b ∈ r.unread ∧ len = r.unread.idxOf b + 1 ∧ r' = r)
    (fun _ r' => b ∉ r.unread ∧ r' = r) r := by
  refine ends_bind (ends_get ?_)
  have hdist := distanceFrom_eq (b := b) (m := 0) h.wf h.length_lt
    (by rw [zero_add]; exact h.unread_lt)
  rw [zero_add] at hdist
  rw [hdist]
  by_cases hb : b ∈ rest r.chunks
  · rw [if_pos hb]
    exact ends_pure ⟨hb, rfl, rfl⟩
  · rw [if_neg hb]
    exact ends_throw ⟨hb, rfl⟩

/-! ### Bytes one by one -/

theorem byte_ends (h : Inv r) (hpos : 0 < r.unread.length) (hempty : emptyAt r.chunks 0 = false) :
    Ends byte (fun b r' => r.unread[0]? = some b ∧ r' = r.advanced 1) (fun _ _ => False) r := by
  obtain ⟨chunks, available⟩ := r
  cases chunks with
  | nil => exact absurd hpos (lt_irrefl 0)
  | cons c cs =>
    obtain ⟨data, offset⟩ := c
    have hleft : offset < data.length := by
      by_contra hge
      refine absurd (emptyAt_cons.2 (.inl ⟨rfl, ?_⟩)) (by rw [hempty]; exact Bool.false_ne_true)
      omega
    have hfirst : (rest ((data, offset) :: cs))[0]? = data[offset]? := by
      rw [rest_cons, List.getElem?_append_left (by rw [length_left]; omega), Piece.left,
        List.getElem?_drop, add_zero]
    have hchunks : (if offset + 1 < data.length then (data, offset + 1) :: cs else cs) =
        advance ((data, offset) :: cs) 1 := by
      split
      · rw [advance_of_lt (by omega)]
      · rw [advance_of_le one_pos (by omega), show 1 - (data.length - offset) = 0 by omega,
          advance_zero]
    refine ends_bind (ends_get ?_)
    simp only [List.getElem?_eq_getElem hleft]
    refine ends_bind (ends_set (ends_pure ⟨?_, ?_⟩))
    · rw [← List.getElem?_eq_getElem hleft]
      exact hfirst
    · rw [hchunks]
      rfl

/-- `u8` takes the next byte, where the head chunk is not empty. -/
theorem u8_ends (h : Inv r) (hempty : 0 < r.unread.length → emptyAt r.chunks 0 = false) :
    Ends u8 (fun b r' => r.unread[0]? = some b ∧ r' = r.advanced 1)
      (fun _ r' => r.unread = [] ∧ r' = r) r := by
  refine ends_bind (ends_get (ends_ite (fun hge => ?_) fun hlt => ?_))
  · rw [h.available] at hge
    exact (byte_ends h hge (hempty hge)).mono (fun _ _ hr => hr) fun _ _ hf => hf.elim
  · rw [h.available] at hlt
    exact ends_throw ⟨List.length_eq_zero_iff.1 (by omega), rfl⟩

omit [Target] in
/-- An empty chunk that is met after `n` bytes stood there before. -/
theorem emptyAt_advanced (h : emptyAt r.chunks (n + k) = false) :
    emptyAt (r.advanced n).chunks k = false := by
  by_contra hne
  have hat := emptyAt_advance (Bool.eq_true_of_not_eq_false hne)
  rw [h] at hat
  exact Bool.false_ne_true hat

/-- Bytes taken one by one, no empty chunk among them. -/
theorem u8s_ends (h : Inv r) (hn : n ≤ r.unread.length)
    (hempty : ∀ k < n, emptyAt r.chunks k = false) :
    Ends (u8s n) (fun bs r' => bs = r.unread.take n ∧ r' = r.advanced n) (fun _ _ => False) r := by
  induction n generalizing r with
  | zero => exact ends_pure ⟨rfl, advanced_zero.symm⟩
  | succ n ih =>
    have hpos : 0 < r.unread.length := by omega
    refine ends_bind (ends_bind (ends_get (ends_ite (fun hge => ?_) fun hlt => ?_)))
    · refine (byte_ends h hpos (hempty 0 (succ_pos n))).mono ?_ fun _ _ hf => hf.elim
      rintro b r' ⟨hb, rfl⟩
      have hrest : ∀ k < n, emptyAt (r.advanced 1).chunks k = false :=
        fun k hk => emptyAt_advanced (hempty (1 + k) (by omega))
      have hlen : n ≤ (r.advanced 1).unread.length := by
        rw [unread_advanced, length_drop]
        omega
      refine ends_bind ((ih (h.advanced 1) hlen hrest).mono ?_ fun _ _ hf => hf)
      rintro bs r' ⟨rfl, rfl⟩
      refine ends_pure ⟨?_, ?_⟩
      · rw [unread_advanced]
        obtain ⟨c, cs, hcs⟩ := List.exists_cons_of_length_pos hpos
        rw [hcs] at hb ⊢
        obtain rfl : c = b := by simpa using hb
        rw [List.drop_one, List.tail_cons, List.take_succ_cons]
      · rw [advanced_advanced, add_comm]
    · rw [h.available] at hlt
      exact absurd hpos hlt

theorem readUntil_ends (h : Inv r)
    (hempty : b ∈ r.unread → emptyAt r.chunks (r.unread.idxOf b) = false) : Ends (readUntil b)
      (fun out r' => b ∈ r.unread ∧ out = r.unread.take (r.unread.idxOf b) ∧
        r' = r.advanced (r.unread.idxOf b + 1)) (fun _ r' => b ∉ r.unread ∧ r' = r) r := by
  refine ends_bind ((distanceOf_ends h b).mono ?_ fun _ _ hr => hr)
  rintro len r' ⟨hb, rfl, rfl⟩
  have hidx : r'.unread.idxOf b < r'.unread.length := idxOf_lt_length_of_mem hb
  rw [Nat.add_sub_cancel]
  refine ends_bind ((block_ends h).mono ?_ fun _ _ hr => absurd hidx.le hr.1)
  rintro out r'' ⟨-, rfl, rfl⟩
  have hat : emptyAt (r'.advanced (r'.unread.idxOf b)).chunks 0 = false :=
    emptyAt_advanced (hempty hb)
  refine ends_bind ((u8_ends (h.advanced _) fun _ => hat).mono ?_ ?_)
  · rintro c r'' ⟨-, rfl⟩
    exact ends_pure ⟨hb, rfl, advanced_advanced _ _⟩
  rintro e r'' ⟨hnil, -⟩
  rw [unread_advanced, List.drop_eq_nil_iff] at hnil
  exact absurd hidx (by omega)

omit [Target] in
/-- The line that `line` took, less what it cuts off. -/
theorem truncated_line {keep : Bool} {bs : Bytes} (hb : lf ∈ bs) : (bs.take (bs.idxOf lf + 1)).take
        (bs.idxOf lf + 1 - truncLen keep (bs.idxOf lf + 1) (bs.take (bs.idxOf lf + 1))) =
      if keep then bs.take (bs.idxOf lf) ++ [lf] else chomp (bs.take (bs.idxOf lf)) := by
  have hidx : bs.idxOf lf < bs.length := idxOf_lt_length_of_mem hb
  generalize hp : bs.idxOf lf = p at *
  have hline : bs.take (p + 1) = bs.take p ++ [lf] := by
    rw [List.take_succ_eq_append_getElem hidx]
    congr 2
    subst hp
    exact List.getElem_idxOf hidx
  have hlen : (bs.take p).length = p := by
    rw [length_take]
    omega
  cases keep with
  | true =>
    rw [truncLen, if_pos rfl, if_pos rfl, Nat.sub_zero, List.take_take, Nat.min_self, hline]
  | false =>
    rw [truncLen, if_neg Bool.false_ne_true, if_neg Bool.false_ne_true, List.take_take, chomp]
    rcases Nat.eq_zero_or_pos p with rfl | hpos
    · simp
    have hlast : (bs.take (p + 1))[p + 1 - 2]? = (bs.take p).getLast? := by
      rw [hline, List.getElem?_append_left (by omega), List.getLast?_eq_getElem?, hlen]
      rfl
    rw [hlast]
    by_cases hcr : (bs.take p).getLast? = some cr
    · rw [if_pos ⟨by omega, hcr⟩, if_pos hcr, List.dropLast_take (by omega)]
      congr 1
      omega
    rw [if_neg (fun hc => hcr hc.2), if_neg hcr]
    congr 1
    omega

theorem line_ends {keep : Bool} (h : Inv r) : Ends (line keep)
      (fun out r' => lf ∈ r.unread ∧ (out = if keep then r.unread.take (r.unread.idxOf lf) ++ [lf]
          else chomp (r.unread.take (r.unread.idxOf lf))) ∧ r' = r.advanced (r.unread.idxOf lf + 1))
      (fun _ r' => lf ∉ r.unread ∧ r' = r) r := by
  refine ends_bind ((distanceOf_ends h lf).mono ?_ fun _ _ hr => hr)
  rintro len r' ⟨hb, rfl, rfl⟩
  have hidx : r'.unread.idxOf lf < r'.unread.length := idxOf_lt_length_of_mem hb
  refine ends_bind (ends_get (ends_bind (ends_set ?_)))
  have havail : (r'.available + (usize - (r'.unread.idxOf lf + 1))) % usize =
      r'.available - (r'.unread.idxOf lf + 1) := by
    have hlt := h.unread_lt
    rw [h.available, show r'.unread.length + (usize - (r'.unread.idxOf lf + 1)) =
      r'.unread.length - (r'.unread.idxOf lf + 1) + usize by omega, add_mod_right,
      mod_eq_of_lt (by omega)]
  rw [havail]
  refine ends_bind ((takeLoop_ends
    (r := { r' with available := r'.available - (r'.unread.idxOf lf + 1) }) (b := r'.unread)
    (I := fun i out => out = r'.unread.take i) ?_ rfl rfl (zero_le _) hidx rfl).mono ?_
    fun _ _ hf => hf.elim)
  · rintro data out offset i k rfl - - hbs
    rw [appendTo, hbs, ← take_add]
  · rintro out r'' ⟨rfl, rfl⟩
    exact ends_pure ⟨hb, truncated_line hb, rfl⟩

/-! ### Integers -/

/-- An integer is read across the chunks byte by byte, where none of them is empty. -/
theorem readUint_ends {target order : ByteOrder} (h : Inv r) (hn : 0 < n)
    (hempty : n ≤ r.unread.length → r.headLeft < n → ∀ k < n, emptyAt r.chunks k = false) :
    Ends (readUint target order n)
      (fun x r' => n ≤ r.unread.length ∧ x = ofBytes order n (r.unread.take n) ∧ r' = r.advanced n)
      (fun _ r' => ¬ n ≤ r.unread.length ∧ r' = r) r := by
  refine ends_bind (ends_get (ends_ite (fun hge => ?_) fun hlt => ?_))
  · rw [h.available] at hge
    obtain ⟨chunks, available⟩ := r
    cases chunks with
    | nil => exact absurd hge (Nat.not_le_of_lt hn)
    | cons c cs =>
      obtain ⟨data, offset⟩ := c
      refine ends_ite (fun hfast => ?_) fun hslow => ?_
      · have hdata : data.length < usize := h.length_lt _ (.head _)
        have hread : readNative target n data offset =
            some (ofBytes target n ((data.drop offset).take n)) := by
          rw [readNative, mod_eq_of_lt (by omega), if_pos (by omega)]
        have hlen : ((data.drop offset).take n).length = n := by
          rw [length_take, length_drop]
          omega
        have hchunks : (if offset + n < data.length then (data, offset + n) :: cs else cs) =
            advance ((data, offset) :: cs) n := by
          split
          · rw [advance_of_lt (by omega)]
          · rw [advance_of_le hn (by omega), show n - (data.length - offset) = 0 by omega,
              advance_zero]
        rw [hread]
        refine ends_bind (ends_set (ends_pure ⟨hge, ?_, ?_⟩))
        · rw [convert_ofBytes order target hlen]
          congr 1
          rw [unread, rest_cons, List.take_append_of_le_length (by rwa [length_left])]
          rfl
        · rw [hchunks]
          rfl
      refine ends_bind ((u8s_ends h hge (hempty hge (Nat.lt_of_not_le hslow))).mono ?_
        fun _ _ hf => hf.elim)
      rintro bs r' ⟨rfl, rfl⟩
      exact ends_pure ⟨hge, joinBytes_eq order, rfl⟩
  · rw [h.available] at hlt
    exact ends_throw ⟨hlt, rfl⟩

/-! ### Peeks -/

theorem peekByteFrom_fresh (hfresh : ∀ c ∈ cs, c.2 = 0) (ho : o < usize) :
    peekByteFrom cs o = (rest cs)[o]? := by
  induction cs generalizing o with
  | nil => rfl
  | cons c cs ih =>
    obtain ⟨data, offset⟩ := c
    obtain rfl : offset = 0 := hfresh _ (.head _)
    rw [peekByteFrom, Nat.add_zero, Nat.mod_eq_of_lt ho, rest_cons, Piece.left, drop_zero]
    split
    next hge =>
      rw [ih (fun c hc => hfresh c (.tail _ hc)) (by omega),
        List.getElem?_append_right hge]
    next hlt => rw [List.getElem?_append_left (Nat.lt_of_not_le hlt)]

theorem peekU8_eq (h : Inv r) (ho : o + r.headOffset < usize) : r.peekU8 o = r.unread[o]? := by
  obtain ⟨chunks, available⟩ := r
  cases chunks with
  | nil => rfl
  | cons c cs =>
    obtain ⟨data, offset⟩ := c
    have hoff : offset ≤ data.length := h.wf.read_le _ (.head _)
    have ho' : o + offset < usize := ho
    have hfresh : ∀ c ∈ cs, c.2 = 0 := h.wf.tail_fresh
    rw [peekU8, peekByteFrom, mod_eq_of_lt ho', unread, rest_cons]
    split
    · rw [peekByteFrom_fresh hfresh (by omega),
        List.getElem?_append_right (by rw [length_left]; omega), length_left]
      congr 1
      omega
    · rw [List.getElem?_append_left (by rw [length_left]; omega), Piece.left, List.getElem?_drop,
        add_comm]

theorem PeekFits.left {m : Nat} (h : r.PeekFits (m + k) o) : r.PeekFits m o :=
  fun j hj hle => h j (by omega) hle

theorem PeekFits.right {m : Nat} (h : r.PeekFits (m + k) o) (hle : o + m ≤ r.unread.length) :
    r.PeekFits k (o + m) := by
  intro j hj hle'
  rw [add_assoc o]
  exact h (m + j) (by omega) (.inr (by omega))

/-- A peek sees the bytes at its offset. -/
theorem peekUint_eq (order : ByteOrder) (h : Inv r) (k : Nat) (hfits : r.PeekFits (2 ^ k) o) :
    r.peekUint order k o =
      (takeBytes (2 ^ k) (r.unread.drop o)).map fun l => ofBytes order (2 ^ k) l.1 := by
  induction k generalizing o with
  | zero =>
    have ho : o + r.headOffset < usize := hfits 0 Nat.one_pos (.inl rfl)
    rw [peekUint, peekU8_eq h ho]
    show r.unread[o]? = (takeBytes 1 (r.unread.drop o)).map fun l => ofBytes order 1 l.1
    rw [takeBytes, length_drop]
    by_cases hlt : o < r.unread.length
    · have hone : (r.unread.drop o).take 1 = [r.unread[o]] := by
        rw [List.drop_eq_getElem_cons hlt, List.take_succ_cons, List.take_zero]
      rw [if_pos (by omega), List.getElem?_eq_getElem hlt, hone]
      exact congrArg some (ofBytes_singleton order _).symm
    · rw [if_neg (by omega), List.getElem?_eq_none (by omega)]
      rfl
  | succ k ih =>
    have htwo : 2 ^ (k + 1) = 2 ^ k + 2 ^ k := by rw [pow_succ, Nat.mul_two]
    rw [htwo] at hfits
    have hlt := h.unread_lt
    rw [peekUint, ih hfits.left, takeBytes, takeBytes, length_drop]
    by_cases hle : 2 ^ k ≤ r.unread.length - o
    · have hpos : 0 < 2 ^ k := Nat.two_pow_pos k
      have ho : (o + 2 ^ k) % usize = o + 2 ^ k := Nat.mod_eq_of_lt (by omega)
      rw [if_pos hle]
      rw [ho, ih (hfits.right (by omega)), takeBytes, length_drop]
      by_cases hle' : 2 ^ k ≤ r.unread.length - (o + 2 ^ k)
      · rw [if_pos hle', if_pos (by omega)]
        have hsplit : (r.unread.drop o).take (2 ^ (k + 1)) =
            (r.unread.drop o).take (2 ^ k) ++ (r.unread.drop (o + 2 ^ k)).take (2 ^ k) := by
          rw [htwo, take_add, List.drop_drop]
        have hlow : ((r.unread.drop o).take (2 ^ k)).length = 2 ^ k := by
          rw [length_take, length_drop]
          omega
        have hhigh : ((r.unread.drop (o + 2 ^ k)).take (2 ^ k)).length = 2 ^ k := by
          rw [length_take, length_drop]
          omega
        have happend := ofBytes_append order (k := 2 ^ (k + 1)) hlow hhigh
        rw [← hsplit] at happend
        cases order with
        | le | be => exact congrArg some happend
      · rw [if_neg hle', if_neg (by omega)]
        rfl
    · rw [if_neg hle, if_neg (by omega)]
      rfl

end

end Reader

/-! ### Calls -/

theorem Op.readBits_eq (target : ByteOrder) (signed : Bool) (order : ByteOrder) (w : Width) :
    Op.readBits target signed order w =
      Res.ofBits signed <$> Reader.readUint target order w.bytes := by
  cases order <;> cases w <;> rfl

theorem Op.peekBits_eq (signed : Bool) (r : Reader) (offset : Nat) (order : ByteOrder)
    (w : Width) : Op.peekBits signed r offset order w =
      Res.ofBits signed <$> r.peekUint order w.log offset := by
  cases order <;> cases w <;> rfl

omit [Target] in
theorem Width.bytes_pos (w : Width) : 0 < w.bytes := Nat.two_pow_pos _

section
variable {α : Type} {r r' : Reader} {n : Nat} {bs : Bytes} {f : α → Res}

omit [Target] in
theorem takeBytes_of_le (h : n ≤ bs.length) : takeBytes n bs = some (bs.take n, bs.drop n) :=
  if_pos h

omit [Target] in
theorem takeBytes_of_not (h : ¬ n ≤ bs.length) : takeBytes n bs = none := if_neg h

omit [Target] in
theorem splitAtByte_of_mem (h : b ∈ bs) :
    splitAtByte b bs = some (bs.take (bs.idxOf b), bs.drop (bs.idxOf b + 1)) := if_pos h

omit [Target] in
theorem splitAtByte_of_notMem (h : b ∉ bs) : splitAtByte b bs = none := if_neg h

/-- A peek gives what it would on the flat array. -/
theorem ends_ofOption {o : Option α} {flat : Option α × Bytes} (h : r.Inv)
    (hflat : (o, r.unread) = flat) : Ends (Rd.ofOption o)
      (fun a r' => flat = (some a, r'.unread) ∧ r'.Inv)
      (fun _ r' => flat = (none, r'.unread) ∧ r'.Inv) r := by
  cases o with
  | none | some a => exact ⟨hflat.symm, h⟩

/-- **One call.**  It returns, or raises an error, as it would on the flat array of the unconsumed
bytes. -/
theorem Op.run_ends (target : ByteOrder) {op : Op} (h : r.Inv) (hf : r.Fine op) :
    Ends (op.run target) (fun a r' => op.flat r.unread = (some a, r'.unread) ∧ r'.Inv)
      (fun _ r' => op.flat r.unread = (none, r'.unread) ∧ r'.Inv) r := by
  cases op with
  | append data =>
    obtain ⟨hinv, hrest⟩ := h.append data hf
    refine ends_bind (ends_modify (ends_pure ⟨?_, hinv⟩))
    exact congrArg (Prod.mk (some Res.none)) hrest.symm
  | clear => exact ends_bind (ends_set (ends_pure ⟨rfl, Reader.inv_create⟩))
  | skip n =>
    refine ends_bind ((Reader.skip_ends h).mono ?_ ?_)
    · rintro - r' ⟨hn, rfl⟩
      refine ends_pure ⟨?_, h.advanced n⟩
      rw [Op.flat, takeBytes_of_le hn, Reader.unread_advanced]
      rfl
    · rintro - r' ⟨hn, rfl⟩
      rw [Op.flat, takeBytes_of_not hn]
      exact ⟨rfl, h⟩
  | block len =>
    refine ends_map ((Reader.block_ends h).mono ?_ ?_)
    · rintro out r' ⟨hn, rfl, rfl⟩
      rw [Op.flat, takeBytes_of_le hn, Reader.unread_advanced]
      exact ⟨rfl, h.advanced len⟩
    rintro - r' ⟨hn, rfl⟩
    rw [Op.flat, takeBytes_of_not hn]
    exact ⟨rfl, h⟩
  | readUntil separator =>
    refine ends_map ((Reader.readUntil_ends h hf).mono ?_ ?_)
    · rintro out r' ⟨hb, rfl, rfl⟩
      rw [Op.flat, splitAtByte_of_mem hb, Reader.unread_advanced]
      exact ⟨rfl, h.advanced _⟩
    rintro - r' ⟨hb, rfl⟩
    rw [Op.flat, splitAtByte_of_notMem hb]
    exact ⟨rfl, h⟩
  | line keepLineBreaks =>
    refine ends_map ((Reader.line_ends h).mono ?_ ?_)
    · rintro out r' ⟨hb, rfl, rfl⟩
      rw [Op.flat, splitAtByte_of_mem hb, Reader.unread_advanced]
      exact ⟨rfl, h.advanced _⟩
    rintro - r' ⟨hb, rfl⟩
    rw [Op.flat, splitAtByte_of_notMem hb]
    exact ⟨rfl, h⟩
  | byte signed =>
    have hbyte : Ends ((Res.ofBits signed ·) <$> Reader.u8)
        (fun a r' => (Op.byte signed).flat r.unread = (some a, r'.unread) ∧ r'.Inv)
        (fun _ r' => (Op.byte signed).flat r.unread = (none, r'.unread) ∧ r'.Inv) r := by
      refine ends_map ((Reader.u8_ends h hf).mono ?_ ?_)
      · rintro b r' ⟨hb, rfl⟩
        obtain ⟨hpos, hb⟩ := List.getElem?_eq_some_iff.1 hb
        have hone : r.unread.take 1 = [b] := by
          rw [← drop_zero (l := r.unread), List.drop_eq_getElem_cons hpos,
            List.take_succ_cons, List.take_zero, hb]
        rw [Op.flat, takeBytes_of_le hpos, Reader.unread_advanced, hone]
        exact ⟨congrArg (fun x => (some (Res.ofBits signed x), r.unread.drop 1))
          (ofBytes_singleton .le b), h.advanced 1⟩
      · rintro - r' ⟨hnil, rfl⟩
        rw [Op.flat, takeBytes_of_not (by rw [hnil]; exact not_succ_le_zero 0)]
        exact ⟨rfl, h⟩
    cases signed with
    | false => exact hbyte
    | true =>
      have hrun : Op.run target (.byte true) = (Res.ofBits true ·) <$> Reader.u8 := by
        rw [Op.run, Reader.i8, bind_pure_comp, ← comp_map]
        rfl
      rw [hrun]
      exact hbyte
  | read signed order w =>
    rw [Op.run, Op.readBits_eq]
    refine ends_map ((Reader.readUint_ends h w.bytes_pos hf).mono ?_ ?_)
    · rintro x r' ⟨hn, rfl, rfl⟩
      rw [Op.flat, takeBytes_of_le hn, Reader.unread_advanced]
      exact ⟨rfl, h.advanced _⟩
    rintro - r' ⟨hn, rfl⟩
    rw [Op.flat, takeBytes_of_not hn]
    exact ⟨rfl, h⟩
  | peekByte signed offset =>
    have hpeek : r.peekU8 offset =
        (takeBytes 1 (r.unread.drop offset)).map fun l => ofLe 1 l.1 :=
      Reader.peekUint_eq .le h 0 hf
    have hmap : Res.ofBits signed <$> r.peekU8 offset =
        ((Op.peekByte signed offset).flat r.unread).1 := by
      rw [hpeek, Option.map_eq_map, Option.map_map]
      rfl
    exact ends_bind (ends_get (ends_ofOption h (congrArg (·, r.unread) hmap)))
  | peek signed order w offset =>
    have hmap : Op.peekBits signed r offset order w =
        ((Op.peek signed order w offset).flat r.unread).1 := by
      rw [Op.peekBits_eq, Reader.peekUint_eq order h w.log hf, Option.map_eq_map, Option.map_map]
      rfl
    exact ends_bind (ends_get (ends_ofOption h (congrArg (·, r.unread) hmap)))

end

/-! ### Runs -/

section
variable (target : ByteOrder)

/-- A call, and the reader after it; `none` is an error. -/
def Op.exec (op : Op) (r : Reader) : Option Res × Reader :=
  match op.run target r with
  | (.ok a, r') => (some a, r')
  | (.error _, r') => (none, r')

/-- Calls one after the other. -/
def execAll : List Op → Reader → List (Option Res) × Reader
  | [], r => ([], r)
  | op :: ops, r =>
    let (res, r') := op.exec target r
    let (ress, r'') := execAll ops r'
    (res :: ress, r'')

/-- Calls one after the other on a flat array. -/
def flatAll : List Op → Bytes → List (Option Res) × Bytes
  | [], bs => ([], bs)
  | op :: ops, bs =>
    let (res, bs') := op.flat bs
    let (ress, bs'') := flatAll ops bs'
    (res :: ress, bs'')

/-- Every call of the run is fine in the state before it. -/
def AllFine : List Op → Reader → Prop
  | [], _ => True
  | op :: ops, r => r.Fine op ∧ AllFine ops (op.exec target r).2

instance : (ops : List Op) → (r : Reader) → Decidable (AllFine target ops r)
  | [], _ => inferInstanceAs (Decidable True)
  | op :: ops, r =>
    have := instDecidableAllFine ops (op.exec target r).2
    inferInstanceAs (Decidable (r.Fine op ∧ AllFine target ops (op.exec target r).2))

/-- One fine call does what it does on the unconsumed bytes in one array. -/
theorem Op.exec_eq {op : Op} {r : Reader} (h : r.Inv) (hf : r.Fine op) :
    op.flat r.unread = ((op.exec target r).1, (op.exec target r).2.unread) ∧
      (op.exec target r).2.Inv := by
  have hends := Op.run_ends target h hf
  unfold Ends at hends
  unfold Op.exec
  split
  all_goals
    rename_i heq
    rw [heq] at hends
    exact hends

omit [Target] in
theorem Op.flat_of_error (op : Op) {bs : Bytes} (h : (op.flat bs).1 = none) :
    (op.flat bs).2 = bs := by
  have hconsume : ∀ {α : Type} {f : α → Res} {o : Option (α × Bytes)},
      (consume f bs o).1 = none → (consume f bs o).2 = bs := by
    intro α f o ho
    cases o with
    | none => rfl
    | some p => exact absurd ho (Option.some_ne_none _)
  cases op with
  | append data | clear => exact absurd h (Option.some_ne_none _)
  | skip n | block len | readUntil separator | line keepLineBreaks | byte signed
  | read signed order w => exact hconsume h
  | peekByte signed offset | peek signed order w offset => rfl

variable {target}

/-- A run of fine calls does on the reader what it does on the flat array. -/
theorem execAll_eq {ops : List Op} {r : Reader} (h : r.Inv) (hf : AllFine target ops r) :
    flatAll ops r.unread = ((execAll target ops r).1, (execAll target ops r).2.unread) ∧
      (execAll target ops r).2.Inv := by
  induction ops generalizing r with
  | nil => exact ⟨rfl, h⟩
  | cons op ops ih =>
    obtain ⟨heq, hinv⟩ := Op.exec_eq target h hf.1
    obtain ⟨heqs, hinvs⟩ := ih hinv hf.2
    refine ⟨?_, hinvs⟩
    rw [flatAll, heq]
    simp only [heqs]
    rfl

/-- **The reader does not depend on the chunks.**  In a run of fine calls, appends among them, every
call returns what it would on the unconsumed bytes in one array, `size()` counts these bytes, and a
call that raises an error leaves them as they are. -/
theorem reader_flat (target : ByteOrder) (ops : List Op) (h : AllFine target ops { }) :
    (execAll target ops { }).1 = (flatAll ops []).1 ∧
    (execAll target ops { }).2.unread = (flatAll ops []).2 ∧
    (execAll target ops { }).2.size = (execAll target ops { }).2.unread.length ∧
    ∀ op, (execAll target ops { }).2.Fine op →
      (op.exec target (execAll target ops { }).2).1 = none →
      (op.exec target (execAll target ops { }).2).2.unread =
        (execAll target ops { }).2.unread := by
  obtain ⟨heq, hinv⟩ := execAll_eq Reader.inv_create h
  have hflat : flatAll ops [] = _ := heq
  refine ⟨by rw [hflat], by rw [hflat], hinv.available, fun op hf hnone => ?_⟩
  obtain ⟨hop, -⟩ := Op.exec_eq target hinv hf
  have herror : (op.flat (execAll target ops { }).2.unread).1 = none := by rwa [hop]
  have hsame := Op.flat_of_error op herror
  rwa [hop] at hsame

end

end

/-! ### Runs on a target of 64 bits -/

section
attribute [local instance] lp64

/-- A run over three chunks: an integer over the first two boundaries, a peek, a line. -/
abbrev threeChunks : List Op :=
  [.append [1], .append [2, 3], .append [4, 0x0D, 0x0A, 5], .read false .be .w32,
    .peekByte true 2, .line false, .byte false, .byte false]

/-- An integer that straddles three chunks is read as from one. -/
theorem reader_flat_three_chunks : AllFine .le threeChunks { } ∧
    (execAll .le threeChunks { }).1 =
      [some .none, some .none, some .none, some (.uint 32 0x01020304), some (.int 5),
        some (.bytes []), some (.uint 8 5), none] := by
  have hfine : AllFine .le threeChunks { } := by decide
  exact ⟨hfine, (reader_flat .le threeChunks hfine).1.trans (by decide)⟩

/-- A byte behind an empty chunk is there and is not read: after the byte 7, an empty chunk and the
byte 9, `size()` is 2 and `u16_be()` raises an error, with the byte 7 gone. -/
theorem empty_chunk_raises : (execAll .le [.append [7], .append [], .append [9]] { }).2.size = 2 ∧
    (execAll .le [.append [7], .append [], .append [9], .read false .be .w16] { }).1 ≠
      (flatAll [.append [7], .append [], .append [9], .read false .be .w16] []).1 ∧
    ((Op.read false .be .w16).exec .le
      (execAll .le [.append [7], .append [], .append [9]] { }).2).1 = none ∧
    ((Op.read false .be .w16).exec .le
      (execAll .le [.append [7], .append [], .append [9]] { }).2).2.unread = [9] := by
  decide

end

end SpacePony.Buffered
