import SpacePony.Runtime.Mem.Pool
import SpacePony.Runtime.Mem.PoolBlocksRuns

/-!
# Runtime — memory — the pool keeps every byte

What holds of the pool between two calls, and what allocating and giving back do to it, one call
each: `pages_spec`, `alloc_spec`, `free_spec`, `allocSize_spec`.
-/

namespace SpacePony.Mem

open Nat Option List Regions PoolBlocks

/-! ### Pieces of memory -/

/-- The pieces `L'` may stand wherever the pieces `L` stand, and have as many bytes. -/
structure Trade (L L' : List Region) : Prop where
  separate : ∀ {rest}, Separate (L ++ rest) → Separate (L' ++ rest)
  fine : (∀ r ∈ L, Fine r) → ∀ r ∈ L', Fine r
  bytes : Regions.bytes L' = Regions.bytes L

variable {L L' M : List Region} {r : Region} {st st' : Pool} {live live' : List Region}
  {size index : Nat} {p : Ptr} {env : Env}

theorem Trade.perm (h : L.Perm L') : Trade L L' :=
  ⟨fun hs => hs.perm (h.append_right _), fun hf r hr => hf r (h.mem_iff.2 hr), (bytes_perm h).symm⟩

theorem Trade.trans (h : Trade L L') (h' : Trade L' M) : Trade L M :=
  ⟨fun hs => h'.separate (h.separate hs), fun hf => h'.fine (h.fine hf), h'.bytes.trans h.bytes⟩

theorem Trade.frame (h : Trade L L') (M : List Region) : Trade (L ++ M) (L' ++ M) := by
  refine ⟨fun hs => ?_, fun hf => ?_, ?_⟩
  · rw [append_assoc] at hs ⊢
    exact h.separate hs
  · obtain ⟨hL, hM⟩ := forall_mem_append.1 hf
    exact forall_mem_append.2 ⟨h.fine hL, hM⟩
  · rw [bytes_append, bytes_append, h.bytes]

/-- A piece cut in two. -/
theorem Trade.cut {a m n : Nat} (hm : 0 < m) (hn : 0 < n) (L : List Region) :
    Trade (⟨a, m + n⟩ :: L) (⟨a, m⟩ :: ⟨a + m, n⟩ :: L) := by
  refine ⟨fun hs => ?_, fun hf => ?_, ?_⟩
  · refine hs.split ?_ ?_ ?_
    all_goals
      simp only [Region.Inside, Region.Apart]
      omega
  · obtain ⟨⟨-, hnonnull, hbound⟩, hL⟩ := forall_mem_cons.1 hf
    rw [NULL] at hnonnull
    dsimp only at hnonnull hbound
    refine forall_mem_cons.2 ⟨⟨hm, hnonnull, ?_⟩, forall_mem_cons.2 ⟨⟨hn, ?_, ?_⟩, hL⟩⟩
    all_goals
      simp only [NULL]
      omega
  · simp only [bytes_cons]
    omega

namespace Pool

/-- The part of the block a class is cut from that is still free. -/
def rest (l : PoolLocal) : List Region :=
  if l.start < l.stop then [⟨l.start, l.stop - l.start⟩] else []

/-- The next piece of the block, of `n` bytes. -/
theorem rest_cut {l : PoolLocal} {n : Nat} (hlt : l.start < l.stop) (hn : 0 < n)
    (hdvd : n ∣ l.stop - l.start) :
    Trade (rest l) (⟨l.start, n⟩ :: rest { l with start := l.start + n }) := by
  have hle : n ≤ l.stop - l.start := Nat.le_of_dvd (Nat.sub_pos_of_lt hlt) hdvd
  rw [rest, if_pos hlt, rest]
  by_cases hmore : l.start + n < l.stop
  · rw [if_pos hmore]
    have hcut := Trade.cut (a := l.start) (m := n) (n := l.stop - (l.start + n)) hn
      (Nat.sub_pos_of_lt hmore) []
    have hsum : n + (l.stop - (l.start + n)) = l.stop - l.start := by
      rw [Nat.sub_add_eq]
      exact Nat.add_sub_cancel' hle
    rwa [hsum] at hcut
  have heq : l.stop - l.start = n := by
    have hge := Nat.le_of_not_lt hmore
    refine Nat.le_antisymm ?_ hle
    rw [Nat.sub_le_iff_le_add']
    exact hge
  rw [if_neg hmore, heq]
  exact .perm (List.Perm.refl _)

/-- The middle of a list first. -/
theorem perm_middle_first (A R C L : List Region) :
    ((A ++ R ++ C) ++ L).Perm (R ++ (A ++ C ++ L)) := by
  rw [append_assoc A, append_assoc, append_assoc, append_assoc]
  exact perm_append_comm_assoc ..

/-- The free memory of a class: its lists, and the rest of the block it is cut from. -/
def classRegions (st : Pool) (index : Nat) : List Region :=
  (st.locals index).pool.map (fun p => ⟨p, poolSize index⟩) ++ rest (st.locals index) ++
    (st.central index).flatten.map fun p => ⟨p, poolSize index⟩

/-- The free memory outside the thread's list of blocks. -/
def others (st : Pool) : List Region :=
  (range poolCount).flatMap st.classRegions ++ st.blockGlobal

/-- The free memory of the other classes, and the global list of blocks. -/
def restOf (st : Pool) (index : Nat) : List Region :=
  ((range poolCount).erase index).flatMap st.classRegions ++ st.blockGlobal

/-- The lists of a class and their counts. -/
structure ClassOk (st : Pool) (index : Nat) : Prop where
  length : (st.locals index).length = (st.locals index).pool.length
  count : (st.locals index).length ≤ poolGlobalCount index
  central : ∀ c ∈ st.central index, 0 < c.length ∧ c.length ≤ poolGlobalCount index
  rest : (st.locals index).start < (st.locals index).stop →
    poolSize index ∣ (st.locals index).stop - (st.locals index).start

/-- The size of a block handed out: that of a class, or whole pages. -/
def BlockSize (n : Nat) : Prop := (∃ i < poolCount, n = poolSize i) ∨ n % poolAlign = 0

/-- **The pool between two calls**, with the blocks `live` handed out. -/
structure Sound (st : Pool) (live : List Region) : Prop where
  blocks : ∃ xs, Holds st.blocks xs (st.others ++ live)
  global : ∀ r ∈ st.blockGlobal, r.size % poolAlign = 0
  classes : ∀ i < poolCount, ClassOk st i
  sizes : ∀ r ∈ live, BlockSize r.size
  conserved : st.blocks.totalSize + bytes st.others + bytes live = st.obtained

theorem others_perm (hi : index < poolCount) :
    st.others.Perm (st.classRegions index ++ st.restOf index) := by
  have hp := perm_cons_erase (mem_range.2 hi)
  have hflat := hp.flatMap_right st.classRegions
  rw [flatMap_cons] at hflat
  rw [restOf, ← append_assoc]
  exact hflat.append_right _

theorem flatMap_classRegions {is : List Nat} (h : ∀ j ∈ is, st'.classRegions j = st.classRegions j) :
    is.flatMap st'.classRegions = is.flatMap st.classRegions := by
  induction is with
  | nil => rfl
  | cons i is ih =>
    obtain ⟨hi, his⟩ := forall_mem_cons.1 h
    rw [flatMap_cons, flatMap_cons, hi, ih his]

/-- Only one class has changed. -/
structure OnlyClass (st st' : Pool) (index : Nat) : Prop where
  blocks : st'.blocks = st.blocks
  global : st'.blockGlobal = st.blockGlobal
  obtained : st'.obtained = st.obtained
  locals : ∀ j, j ≠ index → st'.locals j = st.locals j
  central : ∀ j, j ≠ index → st'.central j = st.central j

theorem OnlyClass.restOf (h : OnlyClass st st' index) : st'.restOf index = st.restOf index := by
  rw [Pool.restOf, Pool.restOf, h.global]
  congr 1
  refine flatMap_classRegions fun j hj => ?_
  have hne : j ≠ index := ((nodup_range).mem_erase_iff.1 hj).1
  rw [classRegions, classRegions, h.locals j hne, h.central j hne]

/-- **One class deals**: its free memory and the blocks handed out become others with the same
bytes. -/
theorem Sound.deal (h : Sound st live) (hi : index < poolCount) (ho : OnlyClass st st' index)
    (hclass : ClassOk st' index) (hlive : ∀ r ∈ live', BlockSize r.size)
    (ht : Trade (st.classRegions index ++ live) (st'.classRegions index ++ live')) :
    Sound st' live' := by
  obtain ⟨⟨xs, hxs⟩, hglobal, hclasses, -, hconserved⟩ := h
  have hold : (st.others ++ live).Perm ((st.classRegions index ++ live) ++ st.restOf index) := by
    refine ((others_perm hi).append_right live).trans ?_
    rw [append_assoc, append_assoc]
    exact perm_append_comm.append_left _
  have hnew : (st'.others ++ live').Perm
      ((st'.classRegions index ++ live') ++ st.restOf index) := by
    refine ((others_perm hi).append_right live').trans ?_
    rw [ho.restOf, append_assoc, append_assoc]
    exact perm_append_comm.append_left _
  have hbytes : bytes st'.others + bytes live' = bytes st.others + bytes live := by
    rw [← bytes_append, ← bytes_append, bytes_perm hold, bytes_perm hnew, bytes_append, ht.bytes,
      ← bytes_append]
  refine ⟨⟨xs, ?_⟩, ho.global ▸ hglobal, fun j hj => ?_, hlive, ?_⟩
  · rw [ho.blocks]
    refine hxs.hand ?_ fun r hr => ?_
    · have hfirst : (st.blocks.regions xs ++ (st.others ++ live)).Perm
          ((st.classRegions index ++ live) ++ (st.restOf index ++ st.blocks.regions xs)) := by
        rw [← append_assoc (st.classRegions index ++ live)]
        exact perm_append_comm.trans (hold.append_right _)
      have hlast : (st.blocks.regions xs ++ (st'.others ++ live')).Perm
          ((st'.classRegions index ++ live') ++ (st.restOf index ++ st.blocks.regions xs)) := by
        rw [← append_assoc (st'.classRegions index ++ live')]
        exact perm_append_comm.trans (hnew.append_right _)
      exact (ht.separate (hxs.separate.perm hfirst)).perm hlast.symm
    have hfine : ∀ r ∈ (st.classRegions index ++ live) ++ st.restOf index, Fine r :=
      fun r hr => hxs.fine r (hold.mem_iff.2 hr)
    obtain ⟨hfirst, hrest⟩ := forall_mem_append.1 hfine
    rcases mem_append.1 (hnew.mem_iff.1 hr) with hr | hr
    · exact ht.fine hfirst r hr
    · exact hrest r hr
  · by_cases hji : j = index
    · exact hji ▸ hclass
    obtain ⟨hlength, hcount, hcentral, hrest⟩ := hclasses j hj
    rw [← ho.locals j hji] at hlength hcount hrest
    rw [← ho.central j hji] at hcentral
    exact ⟨hlength, hcount, hcentral, hrest⟩
  · rw [ho.blocks, ho.obtained]
    omega

/-! ### Pages -/

/-- Where neither the thread's list nor the global list has a block of `size` bytes, the system
has memory. -/
def Grants (st : Pool) (live : List Region) (size : Nat) (env : Env) : Prop :=
  st.blocks.largestSize < size → (∀ r ∈ st.blockGlobal, r.size < size) →
    Good ⟨env.fresh, mapped size⟩ ∧ Elsewhere st.blocks (st.others ++ live) ⟨env.fresh, mapped size⟩

/-- What an operation that gets or gives back memory leaves alone. -/
structure SameClasses (st st' : Pool) : Prop where
  locals : st'.locals = st.locals
  central : st'.central = st.central
  mem : st'.mem = st.mem

/-- **A block of whole pages.** -/
theorem pages_spec (h : Sound st live) (hpos : 0 < size) (haligned : size % poolAlign = 0)
    (hgrants : Grants st live size env) :
    ∃ p st', poolPages size env st = .ok (p, st') ∧ Sound st' (⟨p, size⟩ :: live) ∧
      SameClasses st st' := by
  obtain ⟨⟨xs, hxs⟩, hglobal, hclasses, hsizes, hconserved⟩ := h
  have hsizes' : ∀ {q : Ptr}, ∀ r ∈ (⟨q, size⟩ : Region) :: live, BlockSize r.size :=
    forall_mem_cons.2 ⟨.inr haligned, hsizes⟩
  rw [poolPages]
  by_cases hle : st.blocks.largestSize ≥ size
  · obtain ⟨p, blocks, xs', hrun, hholds, -, htotal⟩ := alloc_spec
      (st.blockGlobal.find? fun r => decide (size ≤ r.size)) env.fresh hxs hpos haligned
      fun hc => absurd hle (Nat.not_le.2 hc)
    rw [if_pos hle, Nat.add_zero] at htotal
    have hperm : (⟨p, size⟩ :: (st.others ++ live)).Perm (st.others ++ ⟨p, size⟩ :: live) :=
      perm_middle.symm
    refine ⟨p, { st with blocks := blocks }, ?_, ⟨⟨xs', ?_⟩, hglobal, fun i hi => ?_, hsizes', ?_⟩,
      ⟨rfl, rfl, rfl⟩⟩
    · rw [hrun]
      exact if_pos hle
    · exact hholds.perm hperm
    · exact ⟨(hclasses i hi).1, (hclasses i hi).2, (hclasses i hi).3, (hclasses i hi).4⟩
    · rw [bytes_cons]
      show blocks.totalSize + bytes st.others + (size + bytes live) = st.obtained
      omega
  have hlt : st.blocks.largestSize < size := Nat.lt_of_not_le hle
  cases hfind : st.blockGlobal.find? fun r => decide (size ≤ r.size) with
  | none =>
    have hnone : ∀ r ∈ st.blockGlobal, r.size < size := fun r hr =>
      Nat.lt_of_not_le fun hc => (find?_eq_none.1 hfind) r hr (decide_eq_true hc)
    obtain ⟨p, blocks, xs', hrun, hholds, -, htotal⟩ := alloc_spec none env.fresh hxs hpos
      haligned fun _ => ⟨fun r hr => absurd hr (not_mem_none r), fun _ =>
        hgrants hlt hnone⟩
    rw [if_neg hle, map_none, getD_none, mapped] at htotal
    have hperm : (⟨p, size⟩ :: (st.others ++ live)).Perm (st.others ++ ⟨p, size⟩ :: live) :=
      perm_middle.symm
    refine ⟨p, { st with
        blocks := blocks
        obtained := st.obtained + if size ≥ poolMmap then size else poolMmap }, ?_,
      ⟨⟨xs', ?_⟩, hglobal, fun i hi => ?_, hsizes', ?_⟩, ⟨rfl, rfl, rfl⟩⟩
    · rw [hrun]
      exact if_neg hle
    · exact hholds.perm hperm
    · exact ⟨(hclasses i hi).1, (hclasses i hi).2, (hclasses i hi).3, (hclasses i hi).4⟩
    · rw [bytes_cons]
      show blocks.totalSize + bytes st.others + (size + bytes live) = st.obtained + _
      omega
  | some r =>
    have hr : r ∈ st.blockGlobal := mem_of_find?_eq_some hfind
    have hfit : size ≤ r.size := by
      have hp := find?_some hfind
      exact of_decide_eq_true hp
    obtain ⟨others, hothers⟩ : ∃ others, others
        = (range poolCount).flatMap st.classRegions ++ st.blockGlobal.erase r := ⟨_, rfl⟩
    have hold : st.others.Perm (r :: others) := by
      rw [hothers]
      exact ((perm_cons_erase hr).append_left _).trans perm_middle
    have hall : (st.blocks.regions xs ++ (st.others ++ live)).Perm
        (r :: (st.blocks.regions xs ++ (others ++ live))) :=
      ((hold.append_right live).append_left _).trans perm_middle
    have hsep := hxs.separate.perm hall
    obtain ⟨hfine, hfine'⟩ := forall_mem_cons.1 fun u hu =>
      hxs.fine u ((hold.append_right live).mem_iff.2 hu)
    obtain ⟨p, blocks, xs', hrun, hholds, -, htotal⟩ := alloc_spec (some r) env.fresh
      (hxs.hand (separate_cons.1 hsep).2 hfine') hpos haligned
      fun _ => ⟨fun u hu => by
        cases hu
        exact ⟨hfit, ⟨hfine, hglobal r hr⟩, fun ys hys => hys.unique hxs.listed ▸ hsep⟩,
        fun hc => absurd hc (some_ne_none r)⟩
    rw [if_neg hle, map_some, getD_some] at htotal
    have hperm : (⟨p, size⟩ :: (others ++ live)).Perm (others ++ ⟨p, size⟩ :: live) :=
      perm_middle.symm
    obtain ⟨st', hst'⟩ : ∃ st', st' = { st with
        blocks := blocks, blockGlobal := st.blockGlobal.erase r } := ⟨_, rfl⟩
    have hothers' : st'.others = others := by
      rw [hst', hothers]
      rfl
    refine ⟨p, st', ?_, ⟨⟨xs', ?_⟩, ?_, fun i hi => ?_, hsizes', ?_⟩, ?_⟩
    · rw [hrun, hst']
      exact if_neg hle
    · rw [hothers', hst']
      exact hholds.perm hperm
    · rw [hst']
      exact fun u hu => hglobal u (mem_of_mem_erase hu)
    · rw [hst']
      exact ⟨(hclasses i hi).1, (hclasses i hi).2, (hclasses i hi).3, (hclasses i hi).4⟩
    · rw [bytes_perm hold, bytes_cons] at hconserved
      rw [hothers', bytes_cons, hst']
      show blocks.totalSize + bytes others + (size + bytes live) = st.obtained
      omega
    · rw [hst']
      exact ⟨rfl, rfl, rfl⟩

/-- **A block of whole pages given back.** -/
theorem freePages_spec (h : Sound st live) (hp : ⟨p, size⟩ ∈ live)
    (haligned : size % poolAlign = 0) :
    ∃ st', poolFreeSize size p env st = .ok st' ∧ Sound st' (live.erase ⟨p, size⟩) ∧
      st'.mem = (st.forget ⟨p, size⟩ env.junk).mem := by
  obtain ⟨⟨xs, hxs⟩, hglobal, hclasses, hsizes, hconserved⟩ := h
  have hold : (st.others ++ live).Perm (⟨p, size⟩ :: (st.others ++ live.erase ⟨p, size⟩)) :=
    ((perm_cons_erase hp).append_left _).trans perm_middle
  have herase : (st.others ++ live).erase ⟨p, size⟩ |>.Perm
      (st.others ++ live.erase ⟨p, size⟩) := by
    have hcons := (perm_cons_erase (mem_append_right st.others hp)).symm.trans hold
    exact perm_cons _ |>.mp hcons
  obtain ⟨blocks, xs', hrun, hholds, htotal⟩ := Mem.free_spec hxs
    (mem_append_right st.others hp) haligned
  refine ⟨{ st with blocks := blocks }.forget ⟨p, size⟩ env.junk, ?_, ⟨⟨xs', ?_⟩, hglobal,
    fun i hi => ?_, fun r hr => hsizes r (mem_of_mem_erase hr), ?_⟩, rfl⟩
  · rw [poolFreeSize, hrun]
    rfl
  · exact hholds.perm herase
  · exact ⟨(hclasses i hi).1, (hclasses i hi).2, (hclasses i hi).3, (hclasses i hi).4⟩
  have hbytes := bytes_perm (perm_cons_erase hp)
  rw [bytes_cons] at hbytes
  show blocks.totalSize + bytes st.others + bytes (live.erase ⟨p, size⟩) = st.obtained
  omega

/-! ### Size classes -/

theorem poolGlobalCount_pos (hi : index < poolCount) : 0 < poolGlobalCount index := by
  have hcount : poolCount = 16 := rfl
  rw [poolGlobalCount, poolMin, Nat.shiftLeft_eq, poolMinBits, Nat.one_shiftLeft, ← pow_add]
  refine Nat.div_pos ?_ (Nat.two_pow_pos _)
  exact Nat.pow_le_pow_right (by decide) (by omega : 5 + index ≤ 20)

theorem onlyClass_setLocal (l : PoolLocal) : OnlyClass st (st.setLocal index l) index :=
  ⟨rfl, rfl, rfl, fun _ hj => Function.update_of_ne hj .., fun _ _ => rfl⟩

variable (c : List (List Ptr))

theorem onlyClass_setCentral : OnlyClass st (st.setCentral index c) index :=
  ⟨rfl, rfl, rfl, fun _ _ => rfl, fun _ hj => Function.update_of_ne hj ..⟩

theorem OnlyClass.trans {st'' : Pool} (h : OnlyClass st st' index) (h' : OnlyClass st' st'' index) :
    OnlyClass st st'' index :=
  ⟨h'.blocks.trans h.blocks, h'.global.trans h.global, h'.obtained.trans h.obtained,
    fun j hj => (h'.locals j hj).trans (h.locals j hj),
    fun j hj => (h'.central j hj).trans (h.central j hj)⟩

@[simp] theorem setLocal_locals (st : Pool) (index : Nat) (l : PoolLocal) :
    (st.setLocal index l).locals index = l :=
  Function.update_self ..

@[simp] theorem setLocal_central (l : PoolLocal) : (st.setLocal index l).central = st.central := rfl

@[simp] theorem setCentral_central :
    (st.setCentral index c).central index = c := Function.update_self ..

@[simp] theorem setCentral_locals : (st.setCentral index c).locals = st.locals := rfl

/-- What the memory holds does not matter. -/
theorem Sound.withMem (h : Sound st live) (mem : Nat → UInt8) : Sound { st with mem := mem } live :=
  ⟨h.blocks, h.global, fun i hi => ⟨(h.classes i hi).1, (h.classes i hi).2, (h.classes i hi).3,
    (h.classes i hi).4⟩, h.sizes, h.conserved⟩

/-- **A block of a size class**, once getting new memory for the class is right. -/
theorem getWith_spec {carve : Pool → Except PoolFault (Ptr × Pool)} {Q : Pool → Prop}
    (h : Sound st live) (hi : index < poolCount) (hQ : ∀ st', OnlyClass st st' index → Q st')
    (hcarve : ∃ p st', carve st = .ok (p, st') ∧ Sound st' (⟨p, poolSize index⟩ :: live) ∧
      st'.mem = st.mem ∧ Q st') : ∃ p st', poolGetWith carve index st = .ok (p, st') ∧
      Sound st' (⟨p, poolSize index⟩ :: live) ∧ st'.mem = st.mem ∧ Q st' := by
  have hclass := h.classes index hi
  have hsizes : ∀ {q : Ptr}, ∀ r ∈ (⟨q, poolSize index⟩ : Region) :: live, BlockSize r.size :=
    forall_mem_cons.2 ⟨.inl ⟨index, hi, rfl⟩, h.sizes⟩
  rw [poolGetWith]
  cases hpool : (st.locals index).pool with
  | cons p next =>
    have hlength := hclass.length
    rw [hpool, length_cons] at hlength
    refine ⟨p, _, rfl, h.deal hi (onlyClass_setLocal _) ⟨?_, ?_, ?_, ?_⟩ hsizes (.perm ?_), rfl,
      hQ _ (onlyClass_setLocal _)⟩
    · rw [setLocal_locals, hlength]
      rfl
    · rw [setLocal_locals]
      exact (sub_le _ _).trans hclass.count
    · exact hclass.central
    · rw [setLocal_locals]
      exact hclass.rest
    · rw [classRegions, classRegions, setLocal_locals, setLocal_central, hpool]
      exact perm_middle.symm
  | nil =>
    rw [poolPull]
    cases hcentral : st.central index with
    | nil => exact hcarve
    | cons top next =>
      obtain ⟨hpos, hcount⟩ := hclass.central top (hcentral ▸ (.head _))
      obtain ⟨p, tail, rfl⟩ := exists_cons_of_length_pos hpos
      obtain ⟨st', hst'⟩ : ∃ st', st' = (st.setLocal index { st.locals index with
          pool := tail, length := (p :: tail).length - 1 }).setCentral index next := ⟨_, rfl⟩
      have hlocal : st'.locals index = { st.locals index with
          pool := tail, length := (p :: tail).length - 1 } := by
        rw [hst', setCentral_locals, setLocal_locals]
      have hnext : st'.central index = next := by rw [hst', setCentral_central]
      have hstep : OnlyClass st st' index := by
        rw [hst']
        exact (onlyClass_setLocal _).trans (onlyClass_setCentral _)
      refine ⟨p, st', ?_, h.deal hi hstep ⟨?_, ?_, ?_, ?_⟩ hsizes (.perm ?_), ?_, hQ _ hstep⟩
      · show (if 0 < (p :: tail).length ∧ (p :: tail).length ≤ poolGlobalCount index then
          Except.ok (some _) else Except.error PoolFault.assertion) >>= _ = _
        rw [if_pos ⟨hpos, hcount⟩, hst']
        rfl
      · rw [hlocal]
        rfl
      · rw [hlocal]
        exact (sub_le _ _).trans hcount
      · rw [hnext]
        exact fun c hc => hclass.central c (hcentral ▸ .tail _ hc)
      · rw [hlocal]
        exact hclass.rest
      · rw [classRegions, classRegions, hlocal, hnext, hpool, hcentral, flatten_cons,
          map_append, map_cons, map_nil, nil_append]
        refine List.Perm.trans ?_ perm_middle.symm
        refine (perm_middle.append_right live).trans (List.Perm.cons _ ?_)
        rw [append_assoc (tail.map _)]
        exact (perm_append_comm_assoc ..).append_right live
      · rw [hst']
        rfl

theorem poolSize_dvd {i j : Nat} (h : i ≤ j) : poolSize i ∣ poolSize j := by
  rw [poolSize_eq, poolSize_eq]
  exact pow_dvd_pow 2 (by omega)

theorem poolAlign_eq_poolSize : poolAlign = poolSize poolAlignIndex := rfl

theorem poolSize_lt_iff {i j : Nat} : poolSize i < poolSize j ↔ i < j := by
  rw [poolSize_eq, poolSize_eq, Nat.pow_lt_pow_iff_right (by decide)]
  omega

section
variable (h : Sound st live)
include h

/-- **A block of a class that is whole pages.** -/
theorem getAligned_spec (hi : index < poolCount)
    (hlarge : poolAlignIndex ≤ index) (hgrants : Grants st live (poolSize index) env) :
    ∃ p st', poolGetAligned index env st = .ok (p, st') ∧
      Sound st' (⟨p, poolSize index⟩ :: live) ∧ st'.mem = st.mem ∧
      ∀ j, j ≠ index → st'.locals j = st.locals j := by
  refine getWith_spec h hi (fun st' hstep => hstep.locals) ?_
  have hdvd : poolAlign ∣ poolSize index := poolSize_dvd hlarge
  obtain ⟨p, st', hrun, hsound, hsame⟩ := pages_spec h poolSize_pos
    (mod_eq_zero_of_dvd hdvd) hgrants
  exact ⟨p, st', hrun, hsound, hsame.mem, fun j _ => by rw [hsame.locals]⟩

/-- **A piece of the block that a class is cut from.** -/
theorem cut_spec (hsmall : index < poolAlignIndex)
    (hgrants : Grants st live poolAlign env) : ∃ p st', poolCut index env st = .ok (p, st') ∧
      Sound st' (⟨p, poolSize index⟩ :: live) ∧ st'.mem = st.mem := by
  have hi : index < poolCount := hsmall.trans (by decide)
  have hclass := h.classes index hi
  have hpos : 0 < poolSize index := poolSize_pos
  have hsizes : ∀ {q : Ptr}, ∀ r ∈ (⟨q, poolSize index⟩ : Region) :: live, BlockSize r.size :=
    List.forall_mem_cons.2 ⟨.inl ⟨index, hi, rfl⟩, h.sizes⟩
  rw [poolCut]
  by_cases hrest : (st.locals index).start < (st.locals index).stop
  · obtain ⟨n, hn⟩ := hclass.rest hrest
    rw [if_pos hrest]
    have hlocal := setLocal_locals st index
      { st.locals index with start := (st.locals index).start + poolSize index }
    refine ⟨_, _, rfl, h.deal hi (onlyClass_setLocal _) ⟨?_, ?_, hclass.central, ?_⟩ hsizes ?_, rfl⟩
    · rw [hlocal]
      exact hclass.length
    · rw [hlocal]
      exact hclass.count
    · rw [hlocal]
      intro _
      show _ ∣ (st.locals index).stop - ((st.locals index).start + poolSize index)
      rw [Nat.sub_add_eq, hn]
      exact Nat.dvd_sub (Nat.dvd_mul_right ..) (Nat.dvd_refl _)
    rw [classRegions, classRegions, setLocal_central, hlocal]
    refine (Trade.perm (perm_middle_first ..)).trans ?_
    refine ((rest_cut hrest hpos (hclass.rest hrest)).frame _).trans (.perm ?_)
    rw [cons_append]
    exact ((perm_middle_first ..).symm.cons _).trans List.perm_middle.symm
  rw [if_neg hrest]
  obtain ⟨mem, st₁, hrun, hsound, hmem, hlocals⟩ :=
    getAligned_spec h (by decide : poolAlignIndex < poolCount) (Nat.le_refl _) hgrants
  have hlocal₁ := hlocals index (Nat.ne_of_lt hsmall)
  have hclass₁ := hsound.classes index hi
  have hlt : poolSize index < poolAlign := poolSize_lt_iff.2 hsmall
  obtain ⟨l, hl⟩ : ∃ l, l = { st₁.locals index with
      start := mem + poolSize index, stop := mem + poolAlign } := ⟨_, rfl⟩
  have hlocal := setLocal_locals st₁ index l
  have hstart : l.start < l.stop := by
    rw [hl]
    exact Nat.add_lt_add_left hlt mem
  have hsize : l.stop - l.start = poolAlign - poolSize index := by
    rw [hl]
    exact Nat.add_sub_add_left ..
  refine ⟨mem, st₁.setLocal index l, ?_, hsound.deal hi (onlyClass_setLocal _)
    ⟨?_, ?_, hclass₁.central, ?_⟩ hsizes ?_, hmem⟩
  · rw [hrun, hl]
    rfl
  · rw [hlocal, hl]
    exact hclass₁.length
  · rw [hlocal, hl]
    exact hclass₁.count
  · rw [hlocal, hsize]
    intro _
    exact Nat.dvd_sub (poolSize_dvd hsmall.le) (Nat.dvd_refl _)
  have hempty : rest (st₁.locals index) = [] := by rw [hlocal₁, rest, if_neg hrest]
  have hrest' : rest l = [⟨mem + poolSize index, poolAlign - poolSize index⟩] := by
    rw [rest, if_pos hstart, hsize, hl]
  have hpool : l.pool = (st₁.locals index).pool := by rw [hl]
  rw [classRegions, classRegions, setLocal_central, hlocal, hempty, hrest', hpool,
    append_nil, ← poolAlign_eq_poolSize]
  have hcut := Trade.cut (a := mem) hpos (Nat.sub_pos_of_lt hlt)
    (((st₁.locals index).pool.map fun p => ⟨p, poolSize index⟩) ++
      ((st₁.central index).flatten.map fun p => ⟨p, poolSize index⟩) ++ live)
  rw [Nat.add_sub_cancel' hlt.le] at hcut
  refine (Trade.perm perm_middle).trans (hcut.trans (.perm ?_))
  exact ((perm_middle_first _ [_] _ live).symm.cons _).trans List.perm_middle.symm

/-- The bytes of the pages that getting a block of a class may need. -/
def pageNeed (index : Nat) : Nat := if poolSize index < poolAlign then poolAlign else poolSize index

/-- **Allocating a block of a class.** -/
theorem alloc_spec (hi : index < poolCount) (hgrants : Grants st live (pageNeed index) env) :
    ∃ p st', ponyintPoolAlloc index env st = .ok (p, st') ∧
      Sound st' (⟨p, poolSize index⟩ :: live) ∧
      st'.mem = (st.forget ⟨p, poolSize index⟩ env.junk).mem := by
  have hget : ∃ p st', poolGet index env st = .ok (p, st') ∧
      Sound st' (⟨p, poolSize index⟩ :: live) ∧ st'.mem = st.mem := by
    rw [poolGet]
    rw [pageNeed] at hgrants
    by_cases hlt : poolSize index < poolAlign
    · rw [if_pos hlt] at hgrants ⊢
      obtain ⟨p, st', hrun, hsound, hmem⟩ := cut_spec h (poolSize_lt_iff.1 hlt) hgrants
      obtain ⟨p, st', hrun, hsound, hmem, -⟩ := getWith_spec (Q := fun _ => True) h hi
        (fun _ _ => trivial) ⟨p, st', hrun, hsound, hmem, trivial⟩
      exact ⟨p, st', hrun, hsound, hmem⟩
    rw [if_neg hlt] at hgrants ⊢
    have hlarge : poolAlignIndex ≤ index := Nat.le_of_not_lt fun hc => hlt (poolSize_lt_iff.2 hc)
    obtain ⟨p, st', hrun, hsound, hmem, -⟩ := getAligned_spec h hi hlarge hgrants
    exact ⟨p, st', hrun, hsound, hmem⟩
  obtain ⟨p, st', hrun, hsound, hmem⟩ := hget
  refine ⟨p, st'.forget ⟨p, poolSize index⟩ env.junk, ?_, hsound.withMem _, ?_⟩
  · rw [ponyintPoolAlloc, hrun]
    rfl
  · rw [Pool.forget, Pool.forget, hmem]

/-- A full free list becomes one of the global lists. -/
theorem push_spec (hi : index < poolCount)
    (hfull : (st.locals index).length = poolGlobalCount index) :
    ∃ st', poolPush index st = .ok st' ∧ Sound st' live ∧ st'.mem = st.mem ∧
      (st'.locals index).length = 0 := by
  have hclass := h.classes index hi
  have hcond : 0 < (st.locals index).length ∧
      (st.locals index).length ≤ poolGlobalCount index :=
    ⟨hfull ▸ poolGlobalCount_pos hi, hclass.count⟩
  obtain ⟨st', hst'⟩ : ∃ st', st' = (st.setLocal index { st.locals index with
      pool := [], length := 0 }).setCentral index
        ((st.locals index).pool :: st.central index) := ⟨_, rfl⟩
  have hlocal : st'.locals index = { st.locals index with pool := [], length := 0 } := by
    rw [hst', setCentral_locals, setLocal_locals]
  have hcentral : st'.central index = (st.locals index).pool :: st.central index := by
    rw [hst', setCentral_central]
  have hstep : OnlyClass st st' index := by
    rw [hst']
    exact (onlyClass_setLocal _).trans (onlyClass_setCentral _)
  refine ⟨st', ?_, h.deal hi hstep ⟨?_, ?_, ?_, ?_⟩ h.sizes (.perm ?_), ?_, ?_⟩
  · rw [poolPush, hst']
    exact if_pos hcond
  · rw [hlocal]
    rfl
  · rw [hlocal]
    exact zero_le _
  · rw [hcentral]
    exact forall_mem_cons.2 ⟨hclass.length ▸ hcond, hclass.central⟩
  · rw [hlocal]
    exact hclass.rest
  · rw [classRegions, classRegions, hlocal, hcentral, flatten_cons, map_append]
    refine List.Perm.append_right live ?_
    rw [map_nil, nil_append, append_assoc]
    exact perm_append_comm_assoc ..
  · rw [hst']
    rfl
  · rw [hlocal]

/-- **Giving back a block of a class.** -/
theorem free_spec (hi : index < poolCount) (hp : ⟨p, poolSize index⟩ ∈ live) :
    ∃ st', ponyintPoolFree index p env st = .ok st' ∧
      Sound st' (live.erase ⟨p, poolSize index⟩) ∧
      st'.mem = (st.forget ⟨p, poolSize index⟩ env.junk).mem := by
  obtain ⟨st₁, hrun, hsound, hmem, hroom⟩ : ∃ st₁,
      (if (st.locals index).length = poolGlobalCount index then poolPush index st else pure st)
        = .ok st₁ ∧ Sound st₁ live ∧ st₁.mem = st.mem ∧
      (st₁.locals index).length < poolGlobalCount index := by
    by_cases hfull : (st.locals index).length = poolGlobalCount index
    · obtain ⟨st₁, hrun, hsound, hmem, hzero⟩ := push_spec h hi hfull
      exact ⟨st₁, by rw [if_pos hfull, hrun], hsound, hmem, hzero ▸ poolGlobalCount_pos hi⟩
    · exact ⟨st, if_neg hfull, h, rfl, lt_of_le_of_ne (h.classes index hi).count hfull⟩
  have hclass := hsound.classes index hi
  obtain ⟨l, hl⟩ : ∃ l, l = { st₁.locals index with
      pool := p :: (st₁.locals index).pool, length := (st₁.locals index).length + 1 } := ⟨_, rfl⟩
  have hlocal := setLocal_locals st₁ index l
  refine ⟨(st₁.setLocal index l).forget ⟨p, poolSize index⟩ env.junk, ?_, ?_, ?_⟩
  · rw [ponyintPoolFree, if_neg (not_not.2 hi)]
    show (if (st.locals index).length = poolGlobalCount index then poolPush index st >>= _
      else pure st >>= _) = _
    rw [← apply_ite (· >>= _), hrun, hl]
    show (if ¬ (st₁.locals index).length < poolGlobalCount index then _ else _) = _
    rw [if_neg (not_not.2 hroom)]
    rfl
  · refine Sound.withMem (hsound.deal hi (onlyClass_setLocal _) ⟨?_, ?_, hclass.central, ?_⟩
      (fun r hr => hsound.sizes r (mem_of_mem_erase hr)) (.perm ?_)) _
    · rw [hlocal, hl]
      show (st₁.locals index).length + 1 = _
      rw [hclass.length]
      rfl
    · rw [hlocal, hl]
      exact hroom
    · rw [hlocal, hl]
      exact hclass.rest
    · rw [classRegions, classRegions, setLocal_central, hlocal, hl]
      exact ((perm_cons_erase hp).append_left _).trans perm_middle
  · show ((st₁.setLocal index l).forget ⟨p, poolSize index⟩ env.junk).mem = _
    rw [Pool.forget, Pool.forget, ← hmem]
    rfl

/-! ### Any size -/

/-- The bytes of the pages that getting a block of a size may need. -/
def pageNeedSize (size : Nat) : Nat :=
  if ponyintPoolIndex size < poolCount then pageNeed (ponyintPoolIndex size)
  else ponyintPoolAdjustSize size

/-- **Allocating whole pages.** -/
theorem allocPages_spec (hpos : 0 < size) (haligned : size % poolAlign = 0)
    (hgrants : Grants st live size env) :
    ∃ p st', poolAllocSize size env st = .ok (p, st') ∧ Sound st' (⟨p, size⟩ :: live) ∧
      st'.mem = (st.forget ⟨p, size⟩ env.junk).mem := by
  obtain ⟨p, st', hrun, hsound, hsame⟩ := pages_spec h hpos haligned hgrants
  refine ⟨p, st'.forget ⟨p, size⟩ env.junk, ?_, hsound.withMem _, ?_⟩
  · rw [poolAllocSize, hrun]
    rfl
  · rw [Pool.forget, Pool.forget, hsame.mem]

/-- **Allocating any size.** -/
theorem allocSize_spec (hsize : size ≤ 2 ^ 64 - 1024)
    (hgrants : Grants st live (pageNeedSize size) env) :
    ∃ p st', ponyintPoolAllocSize size env st = .ok (p, st') ∧
      Sound st' (⟨p, ponyintPoolUsedSize size⟩ :: live) ∧
      st'.mem = (st.forget ⟨p, ponyintPoolUsedSize size⟩ env.junk).mem := by
  rw [ponyintPoolAllocSize]
  rw [pageNeedSize] at hgrants
  by_cases hc : ponyintPoolIndex size < poolCount
  · rw [if_pos hc] at hgrants ⊢
    rw [usedSize_of_lt hc]
    exact alloc_spec h hc hgrants
  rw [if_neg hc] at hgrants ⊢
  rw [usedSize_of_ge hc]
  have hlarge := (poolIndex_spec (by omega : size < 2 ^ 64)).2 (Nat.le_of_not_lt hc)
  obtain ⟨hle, haligned, -, -⟩ := adjustSize_spec (by omega) hsize
  exact allocPages_spec h (by omega) haligned hgrants

end

theorem sound_init : Sound .init [] := by
  refine ⟨⟨[], holds_init⟩, fun r hr => absurd hr not_mem_nil, fun i _ => ?_,
    fun r hr => absurd hr not_mem_nil, rfl⟩
  exact ⟨rfl, zero_le _, fun c hc => absurd hc not_mem_nil, fun hc => absurd hc (lt_irrefl _)⟩

end Pool

end SpacePony.Mem
