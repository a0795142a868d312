import InfixOS.Uboot.Reading

/-! Writing a blkmap. A write past the end of a slice goes to whatever follows the
memory or the blocks the slice is mapped to. -/
namespace Uboot

/-- The bytes of memory that a place takes up. -/
def Place.HasByte : Place w → Ptr w → Prop
  | .mem addr, a => (a - addr).toNat < blksz
  | .disk _ _, _ => False

/-- Places with no byte and no block in common. -/
def Place.Separate (p q : Place w) : Prop := p ≠ q ∧ ∀ a, ¬(p.HasByte a ∧ q.HasByte a)

section Store
variable {store : Store w} {block : Block}

theorem toNat_offset (wide : 9 ≤ w) (addr : Ptr w) (k : Fin blksz) : (addr + BitVec.ofNat w k - addr).toNat = k := by
  have size : 2 ^ 9 ≤ 2 ^ w := Nat.pow_le_pow_right (Nat.zero_lt_succ 1) wide
  rw [BitVec.add_comm, BitVec.add_sub_cancel, BitVec.toNat_ofNat]
  exact Nat.mod_eq_of_lt (Nat.lt_of_lt_of_le k.isLt size)

theorem get_put_self (wide : 9 ≤ w) (p : Place w) : (store.put block p).get p = block := by
  cases p with
  | mem addr =>
    funext k
    have offset := toNat_offset wide addr k
    simp only [Store.put, Store.get]
    rw [dif_pos (by rw [offset]; exact k.isLt)]
    exact congrArg block (Fin.ext offset)
  | disk blk blknr => simp [Store.put, Store.get]

theorem memory_put (p : Place w) (outside : ¬p.HasByte a) : (store.put block p).memory a = store.memory a := by
  cases p with
  | mem addr => exact dif_neg outside
  | disk blk blknr => rfl

theorem disk_put (p : Place w) (other : p ≠ .disk blk blknr) : (store.put block p).disk blk blknr = store.disk blk blknr := by
  cases p with
  | mem addr => rfl
  | disk blk' blknr' =>
    by_cases same : blk = blk'
    · subst same
      have different : blknr ≠ blknr' := fun same => other (same ▸ rfl)
      simp [Store.put, Function.update_of_ne different]
    · simp [Store.put, Function.update_of_ne same]

theorem get_put_of_separate (wide : 9 ≤ w) {p q : Place w} (separate : p.Separate q) :
    (store.put block p).get q = store.get q := by
  cases q with
  | mem addr =>
    funext k
    refine memory_put p fun inside => separate.2 _ ⟨inside, ?_⟩
    change (addr + BitVec.ofNat w k - addr).toNat < blksz
    rw [toNat_offset wide]
    exact k.isLt
  | disk blk blknr => exact disk_put p separate.1

end Store

section Copying
variable {store : Store w} {buffer : Nat → Block} {offset : Nat} {place : Nat → Place w}

theorem copyOut_memory (outside : ∀ i < n, ¬(place i).HasByte a) :
    (copyOut store buffer offset place n).memory a = store.memory a := by
  induction n with
  | zero => rfl
  | succ n ih =>
    rw [copyOut, memory_put _ (outside n (Nat.lt_succ_self n))]
    exact ih fun i below => outside i (Nat.lt_succ_of_lt below)

theorem copyOut_disk (other : ∀ i < n, place i ≠ .disk blk blknr) :
    (copyOut store buffer offset place n).disk blk blknr = store.disk blk blknr := by
  induction n with
  | zero => rfl
  | succ n ih =>
    rw [copyOut, disk_put _ (other n (Nat.lt_succ_self n))]
    exact ih fun i below => other i (Nat.lt_succ_of_lt below)

/-- Blocks copied to separate places are all there afterwards. -/
theorem copyOut_get (wide : 9 ≤ w) (separate : ∀ i < n, ∀ j < n, i ≠ j → (place i).Separate (place j)) (below : i < n) :
    (copyOut store buffer offset place n).get (place i) = buffer (offset + i) := by
  induction n with
  | zero => exact absurd below (Nat.not_lt_zero i)
  | succ n ih =>
    rw [copyOut]
    by_cases last : i = n
    · subst last
      exact get_put_self wide _
    · rw [get_put_of_separate wide (separate n (Nat.lt_succ_self n) i below (Ne.symm last))]
      exact ih (fun i low j high => separate i (Nat.lt_succ_of_lt low) j (Nat.lt_succ_of_lt high)) (by omega)

/-- Writing slices is copying from the buffer. -/
theorem write_copies {host : Host w} (serves : Serves host good) (buffer : Nat → Block) :
    Copies good (Slice.write host buffer) (fun store => copyOut store buffer) where
  none := fun _ _ _ => rfl
  append := by
    intro store offset place k m
    induction m with
    | zero => rfl
    | succ m ih =>
      rw [copyOut, ih, ← Nat.add_assoc, copyOut, Nat.add_assoc]
  congr := by
    intro store offset place place' k same
    induction k with
    | zero => rfl
    | succ k ih =>
      rw [copyOut, copyOut, same k (Nat.lt_succ_self k), ih fun i below => same i (Nat.lt_succ_of_lt below)]
  full := by
    intro bms blknr blkcnt offset store inside
    unfold Slice.write
    cases target : bms.target with
    | mem addr remapped => simp only [memBlocks_place target]
    | linear blk lblknr =>
      have places := diskBlocks_place target blknr
      have answer := serves.write blk (lblknr + blknr) blkcnt (by rwa [places])
      simp only [answer, moved_self, places]

end Copying

section Marking

/-- A block with one byte set. -/
def mark : Block := fun k => if k.val = 0 then 1 else 0

/-- All blank but for one block with a mark. -/
def marked (i : Nat) : Nat → Block := fun j => if j = i then mark else fun _ => 0

def blank : Store w := ⟨fun _ => 0, fun _ _ _ => 0⟩

theorem eq_of_mark_ne_zero (set : mark k ≠ 0) : k.val = 0 := by
  by_contra other
  exact set (if_neg other)

theorem memory_put_ne_zero {store : Store w} {p : Place w} (set : (store.put block p).memory a ≠ 0) :
    store.memory a ≠ 0 ∨ ∃ addr k, p = .mem addr ∧ (a - addr).toNat = k.val ∧ block k ≠ 0 := by
  cases p with
  | disk blk blknr => exact .inl set
  | mem addr =>
    simp only [Store.put] at set
    split at set
    · exact .inr ⟨addr, _, rfl, rfl, set⟩
    · exact .inl set

theorem disk_put_ne_zero {store : Store w} {p : Place w} (set : (store.put block p).disk blk blknr k ≠ 0) :
    store.disk blk blknr k ≠ 0 ∨ (p = .disk blk blknr ∧ block k ≠ 0) := by
  by_cases here : p = .disk blk blknr
  · subst here
    right
    simpa [Store.put] using set
  · left
    rwa [disk_put p here] at set

/-- A copy of blank blocks and a marked one leaves the mark only where that one goes. -/
theorem copyOut_marked (place : Nat → Place w) (n : Nat) :
    (∀ a, (copyOut blank (marked i) 0 place n).memory a ≠ 0 → place i = .mem a) ∧
    ∀ blk blknr k, (copyOut blank (marked i) 0 place n).disk blk blknr k ≠ 0 → place i = .disk blk blknr := by
  have only {j : Nat} {k : Fin blksz} (set : marked i j k ≠ 0) : j = i ∧ mark k ≠ 0 := by
    by_cases here : j = i
    · exact ⟨here, by simpa [marked, here] using set⟩
    · exact absurd (by simp [marked, here]) set
  induction n with
  | zero => exact ⟨fun _ set => absurd rfl set, fun _ _ _ set => absurd rfl set⟩
  | succ n ih =>
    refine ⟨fun a set => ?_, fun blk blknr k set => ?_⟩
    · rcases memory_put_ne_zero set with before | ⟨addr, k, here, offset, set⟩
      · exact ih.1 a before
      · obtain ⟨same, set⟩ := only set
        have zero : a - addr = 0 := BitVec.eq_of_toNat_eq (by rw [offset, eq_of_mark_ne_zero set]; simp)
        rw [Nat.zero_add] at same
        rw [← same, here, sub_eq_zero.mp zero]
    · rcases disk_put_ne_zero set with before | ⟨here, set⟩
      · exact ih.2 blk blknr k before
      · have same := (only set).1
        rw [Nat.zero_add] at same
        rw [← same, here]

/-- So what is read as the marked block is the place it was copied to. -/
theorem eq_of_get_marked {place : Nat → Place w} (got : (copyOut blank (marked i) 0 place n).get p = mark) :
    p = place i := by
  have first : (copyOut blank (marked i) 0 place n).get p ⟨0, by decide⟩ ≠ 0 := by
    rw [got]
    decide
  cases p with
  | mem addr =>
    refine ((copyOut_marked place n).1 addr ?_).symm
    simpa [Store.get] using first
  | disk blk blknr => exact ((copyOut_marked place n).2 blk blknr _ first).symm

end Marking

/-- The copy stays in line: from wherever a slice is entered, the next blocks of the
blkmap, as many as the slice has or are to go, are mapped one after the other to what
follows in the memory or device of that slice. After the last slice entered nothing
is to go, or the next block is not mapped. -/
def InLine (all : List (Slice w)) : List (Slice w) → (p n : Nat) → Prop
  | [], p, n => n = 0 ∨ ¬Extent.Covered Slice.extent all p
  | bms :: rest, p, n =>
    if bms.Entered p then
      (∀ i < bms.share n, ∃ other ∈ all, other.extent.Holds (p + i) ∧
        other.backing (p + i) = bms.place (p - bms.extent.first + i)) ∧
      InLine all rest (p + bms.share n) (n - bms.share n)
    else InLine all rest p n

theorem inLine_iff (all slices : List (Slice w)) (p n : Nat) :
    InLine all slices p n ↔
      (∀ i < run slices p n, ∃ other ∈ all, other.extent.Holds (p + i) ∧ other.backing (p + i) = spot slices p n i) ∧
      (run slices p n < n → ¬Extent.Covered Slice.extent all (p + run slices p n)) := by
  induction slices generalizing p n with
  | nil =>
    simp only [InLine, run, Nat.not_lt_zero, Nat.add_zero]
    have : n = 0 ∨ 0 < n := Nat.eq_zero_or_pos n
    constructor
    · rintro (none | hole)
      · exact ⟨by simp, by omega⟩
      · exact ⟨by simp, fun _ => hole⟩
    · rintro ⟨-, ends⟩
      exact this.imp id ends
  | cons bms rest ih =>
    by_cases entered : bms.Entered p
    · have share := share_le bms n
      rw [InLine, if_pos entered, ih, run_entered entered]
      constructor
      · rintro ⟨here, later, ends⟩
        refine ⟨fun i below => ?_, fun short => ?_⟩
        · by_cases early : i < bms.share n
          · rw [spot_entered entered early]
            exact here i early
          · obtain ⟨other, member, holds, same⟩ := later (i - bms.share n) (by omega)
            rw [show p + bms.share n + (i - bms.share n) = p + i by omega] at holds same
            refine ⟨other, member, holds, ?_⟩
            rw [same, ← spot_later entered, Nat.add_sub_cancel' (by omega)]
        · rw [← Nat.add_assoc]
          exact ends (by omega)
      · rintro ⟨each, ends⟩
        refine ⟨fun i early => ?_, fun i below => ?_, fun short => ?_⟩
        · rw [← spot_entered entered early]
          exact each i (by omega)
        · rw [← spot_later entered, Nat.add_assoc]
          exact each (bms.share n + i) (by omega)
        · rw [Nat.add_assoc]
          exact ends (by omega)
    · have spots : spot (bms :: rest) p n = spot rest p n := funext fun i => spot_skipped entered i
      rw [InLine, if_neg entered, run_skipped entered, spots]
      exact ih p n

/-- What the blocks of the blkmap are mapped to does not overlap. -/
def Apart (slices : List (Slice w)) : Prop :=
  ∀ bms ∈ slices, ∀ other ∈ slices, ∀ n m, bms.extent.Holds n → other.extent.Holds m → n ≠ m →
    (bms.backing n).Separate (other.backing m)

/-- What a write has to do: return the length of the longest mapped prefix of the
range, store its blocks where they are mapped to and change nothing else, so that a
read of the range returns them. -/
structure WritesRight (host : Host w) (store : Store w) (slices : List (Slice w)) (blknr blkcnt : Lba w)
    (data : Nat → Block) (out : Cursor w × Store w) : Prop where
  count : Extent.Reach (Extent.Covered Slice.extent slices) blknr.toNat blkcnt.toNat out.1.total.toNat
  stored : ∀ i < out.1.total.toNat, ∀ bms ∈ slices, bms.extent.Holds (blknr.toNat + i) →
    out.2.get (bms.backing (blknr.toNat + i)) = data i
  memory : ∀ a, (∀ i < out.1.total.toNat, ∀ bms ∈ slices, bms.extent.Holds (blknr.toNat + i) →
    ¬(bms.backing (blknr.toNat + i)).HasByte a) → out.2.memory a = store.memory a
  disk : ∀ blk nr, (∀ i < out.1.total.toNat, ∀ bms ∈ slices, bms.extent.Holds (blknr.toNat + i) →
    bms.backing (blknr.toNat + i) ≠ .disk blk nr) → out.2.disk blk nr = store.disk blk nr
  readBack : ∀ buffer, (blkRead host out.2 slices blknr blkcnt buffer).1.total = out.1.total ∧
    ∀ i < out.1.total.toNat, (blkRead host out.2 slices blknr blkcnt buffer).2 i = data i

section Writing
variable {host : Host w} {slices : List (Slice w)} {blknr blkcnt : Lba w}

theorem blkWrite_eq {good : Place w → Prop} (proper : Proper slices) (serves : Serves host good)
    (backed : ∀ i < run slices blknr.toNat blkcnt.toNat, good (spot slices blknr.toNat blkcnt.toNat i))
    (store : Store w) (data : Nat → Block) :
    (blkWrite host slices blknr blkcnt data store).1.total.toNat = run slices blknr.toNat blkcnt.toNat ∧
    (blkWrite host slices blknr blkcnt data store).2 =
      copyOut store data 0 (spot slices blknr.toNat blkcnt.toNat) (run slices blknr.toNat blkcnt.toNat) := by
  have zero : (0 : Lba w).toNat = 0 := BitVec.toNat_zero
  have loop := (write_copies serves data).transfer proper (c := .start blknr blkcnt) (.inl rfl) rfl
    (by change (0 : Lba w).toNat + _ < _; rw [zero, Nat.zero_add]; exact blkcnt.isLt) backed store
  refine ⟨?_, loop.2.2⟩
  have total := loop.1
  change _ = (0 : Lba w).toNat + _ at total
  rwa [zero, Nat.zero_add] at total

theorem writes_right_of_inLine (wide : 9 ≤ w) (proper : Proper slices) (apart : Apart slices)
    (inLine : InLine slices slices blknr.toNat blkcnt.toNat) (serves : Serves host (Backed slices))
    (store : Store w) (data : Nat → Block) :
    WritesRight host store slices blknr blkcnt data (blkWrite host slices blknr blkcnt data store) := by
  obtain ⟨each, ends⟩ := (inLine_iff _ _ _ _).mp inLine
  have backed (i : Nat) (below : i < run slices blknr.toNat blkcnt.toNat) :
      Backed slices (spot slices blknr.toNat blkcnt.toNat i) := by
    obtain ⟨bms, member, holds, same⟩ := each i below
    exact ⟨bms, member, _, holds, same⟩
  have places (i : Nat) (below : i < run slices blknr.toNat blkcnt.toNat) (bms : Slice w) (member : bms ∈ slices)
      (holds : bms.extent.Holds (blknr.toNat + i)) :
      bms.backing (blknr.toNat + i) = spot slices blknr.toNat blkcnt.toNat i := by
    obtain ⟨other, known, inside, same⟩ := each i below
    rw [← same, proper.layout.unique member known holds inside]
  have separate (i : Nat) (first : i < run slices blknr.toNat blkcnt.toNat) (j : Nat)
      (second : j < run slices blknr.toNat blkcnt.toNat) (different : i ≠ j) :
      (spot slices blknr.toNat blkcnt.toNat i).Separate (spot slices blknr.toNat blkcnt.toNat j) := by
    obtain ⟨bms, member, holds, same⟩ := each i first
    obtain ⟨other, known, inside, same'⟩ := each j second
    rw [← same, ← same']
    exact apart bms member other known _ _ holds inside (by omega)
  obtain ⟨total, result⟩ := blkWrite_eq proper serves backed store data
  constructor
  case count =>
    rw [total]
    refine ⟨run_le _ _ _, fun i below => ?_, ends⟩
    obtain ⟨bms, member, holds, -⟩ := each i below
    exact ⟨bms, member, holds⟩
  case stored =>
    intro i below bms member holds
    rw [total] at below
    rw [places i below bms member holds, result, copyOut_get wide separate below, Nat.zero_add]
  case memory =>
    intro a outside
    rw [total] at outside
    rw [result]
    refine copyOut_memory fun i below => ?_
    obtain ⟨bms, member, holds, same⟩ := each i below
    rw [← same]
    exact outside i below bms member holds
  case disk =>
    intro blk nr other
    rw [total] at other
    rw [result]
    refine copyOut_disk fun i below => ?_
    obtain ⟨bms, member, holds, same⟩ := each i below
    rw [← same]
    exact other i below bms member holds
  case readBack =>
    intro buffer
    obtain ⟨again, -, back⟩ := blkRead_eq proper serves backed (blkWrite host slices blknr blkcnt data store).2 buffer
    refine ⟨BitVec.eq_of_toNat_eq (again.trans total.symm), fun i below => ?_⟩
    rw [total] at below
    rw [back, copyIn, if_pos ⟨Nat.zero_le i, by omega⟩, Nat.sub_zero, result, copyOut_get wide separate below,
      Nat.zero_add]

/-- Whatever the devices, the data and what was there before, a write is right exactly
if the copy stays in line. -/
theorem write_right_iff (wide : 9 ≤ w) (proper : Proper slices) (apart : Apart slices) :
    (∀ host, Serves host (Backed slices) → ∀ store data,
      WritesRight host store slices blknr blkcnt data (blkWrite host slices blknr blkcnt data store)) ↔
    InLine slices slices blknr.toNat blkcnt.toNat := by
  constructor
  · intro right
    rw [inLine_iff]
    have serves : Serves eager fun _ : Place w => True := eager_serves _
    have count : Extent.Reach (Extent.Covered Slice.extent slices) blknr.toNat blkcnt.toNat
        (run slices blknr.toNat blkcnt.toNat) := by
      rw [← (blkWrite_eq proper serves (fun _ _ => trivial) blank (marked 0)).1]
      exact (right eager (eager_serves _) blank (marked 0)).count
    refine ⟨fun i below => ?_, count.ends⟩
    obtain ⟨bms, member, holds⟩ := count.all i below
    obtain ⟨total, result⟩ := blkWrite_eq proper serves (fun _ _ => trivial) blank (marked i)
    -- the one block with a mark is stored where the copy puts it and where it is mapped to
    have stored := (right eager (eager_serves _) blank (marked i)).stored i (by rwa [total]) bms member holds
    rw [result] at stored
    exact ⟨bms, member, holds, eq_of_get_marked (stored.trans (if_pos rfl))⟩
  · intro inLine host serves store data
    exact writes_right_of_inLine wide proper apart inLine serves store data

/-- What reads right also writes right. -/
theorem inLine_of_aligned (proper : Proper slices) (aligned : Aligned slices p n) (misses : MissesEnd slices p n) :
    InLine slices slices p n := by
  rw [inLine_iff]
  refine ⟨fun i below => ?_, ((reach_covered_iff proper (reach_run proper aligned)).mpr misses).ends⟩
  obtain ⟨bms, member, seen, same⟩ := spot_backing proper aligned below
  exact ⟨bms, member, seen.2, same.symm⟩

end Writing

/-- Four blocks of one device and four of another after them. -/
def disks : List (Slice 64) := [⟨0, 4, .linear 7 100⟩, ⟨4, 4, .linear 8 0⟩]

theorem disks_proper : Proper disks where
  layout := Extent.Stacked.layout (by simp [Extent.Stacked, disks, Slice.extent, Extent.stop])
  inRange := by simp [disks, Slice.extent, Extent.stop]

theorem disks_apart : Apart disks := by
  have separate {blk blk' : Device} {nr nr' : Lba 64} (different : Place.disk blk nr ≠ .disk blk' nr') :
      (Place.disk blk nr).Separate (.disk blk' nr') := ⟨different, fun _ both => both.1⟩
  have offsets {start : Lba 64} {i j : Nat} (first : i < 4) (second : j < 4) (different : i ≠ j) :
      start + BitVec.ofNat 64 i ≠ start + BitVec.ofNat 64 j := by
    intro same
    have same := congrArg BitVec.toNat (add_left_cancel same)
    simp only [BitVec.toNat_ofNat] at same
    omega
  intro bms member other known n m holds inside different
  simp only [disks, List.mem_cons, List.not_mem_nil, or_false] at member known
  rcases member with rfl | rfl
  · have below : n < 4 := holds.2
    rcases known with rfl | rfl
    · have below' : m < 4 := inside.2
      refine separate fun same => ?_
      injection same with device number
      exact offsets below below' different number
    · refine separate fun same => ?_
      injection same with device number
      exact absurd device (by decide)
  · have above : 4 ≤ n := holds.1
    have below : n < 8 := holds.2
    rcases known with rfl | rfl
    · refine separate fun same => ?_
      injection same with device number
      exact absurd device (by decide)
    · have above' : 4 ≤ m := inside.1
      have below' : m < 8 := inside.2
      refine separate fun same => ?_
      injection same with device number
      exact offsets (i := n - 4) (j := m - 4) (by omega) (by omega) (by omega) number

/-- All eight blocks, to both devices. -/
theorem write_right_iff_disks :
    Proper disks ∧ Apart disks ∧ ∀ host, Serves host (Backed disks) → ∀ store data,
      WritesRight host store disks 0 8 data (blkWrite host disks 0 8 data store) := by
  have aligned : Aligned disks 0 8 := by simp [Aligned, disks, Slice.extent, Extent.Holds, Extent.stop]
  have misses : MissesEnd disks 0 8 := by simp [MissesEnd, disks, Slice.extent, Extent.stop]
  exact ⟨disks_proper, disks_apart,
    (write_right_iff (by decide) disks_proper disks_apart).mpr (inLine_of_aligned disks_proper aligned misses)⟩

/-- Four blocks from the third on all go to the first device, and the second one keeps
what it had. -/
theorem write_past_slice :
    Proper disks ∧ Apart disks ∧ Serves eager (Backed disks) ∧
    (blkWrite eager disks 2 4 (marked 2) blank).2.disk 8 0 = (fun _ => 0) ∧
    ¬WritesRight eager blank disks 2 4 (marked 2) (blkWrite eager disks 2 4 (marked 2) blank) := by
  have result : (blkWrite eager disks 2 4 (marked 2) blank).2 =
      copyOut blank (marked 2) 0 (spot disks 2 4) (run disks 2 4) :=
    (blkWrite_eq disks_proper (eager_serves fun _ : Place 64 => True) (fun _ _ => trivial) blank (marked 2)).2
  have total : (blkWrite eager disks 2 4 (marked 2) blank).1.total = 4 := by decide +kernel
  have places : ∀ i < 4, spot disks 2 4 i = .disk 7 (102 + BitVec.ofNat 64 i) := by decide +kernel
  have count : run disks 2 4 = 4 := by decide +kernel
  have kept : (blkWrite eager disks 2 4 (marked 2) blank).2.disk 8 0 = fun _ => 0 := by
    rw [result, count]
    refine copyOut_disk fun i below => ?_
    rw [places i below]
    simp
  refine ⟨disks_proper, disks_apart, eager_serves _, kept, fun right => ?_⟩
  have stored := right.stored 2 (by rw [total]; decide) ⟨4, 4, .linear 8 0⟩ (by simp [disks]) ⟨by decide, by decide⟩
  have same : mark = fun _ => 0 := stored.symm.trans kept
  exact absurd (congrFun same ⟨0, by decide⟩) (by decide)

end Uboot
