import InfixOS.Uboot.Pieces

/-! Reading a blkmap. A slice is asked for no more blocks than it has, but from
where the range starts: when that is inside the slice and the range goes on after it,
the slice is asked for blocks past its end. -/
namespace Uboot

theorem memBlocks_eq (addr : Ptr w) (blknr : Lba w) (i : Nat) :
    memBlocks addr blknr i = .mem (addr + BitVec.ofNat w ((blknr.toNat + i) * blksz)) := by
  have shifted : blknr <<< log2blksz = BitVec.ofNat w (blknr.toNat * blksz) := by
    apply BitVec.eq_of_toNat_eq
    simp [Nat.shiftLeft_eq, log2blksz, blksz]
  rw [memBlocks, shifted, BitVec.add_assoc, ← BitVec.ofNat_add, ← Nat.add_mul]

theorem diskBlocks_eq (blk : Device) (lblknr blknr : Lba w) (i : Nat) :
    diskBlocks blk (lblknr + blknr) i = .disk blk (lblknr + BitVec.ofNat w (blknr.toNat + i)) := by
  rw [diskBlocks, BitVec.ofNat_add, BitVec.ofNat_toNat, BitVec.setWidth_eq, BitVec.add_assoc]

theorem memBlocks_place {bms : Slice w} (target : bms.target = .mem addr remapped) (blknr : Lba w) :
    memBlocks addr blknr = fun i => bms.place (blknr.toNat + i) := by
  funext i
  rw [memBlocks_eq, Slice.place, target]

theorem diskBlocks_place {bms : Slice w} (target : bms.target = .linear blk lblknr) (blknr : Lba w) :
    diskBlocks blk (lblknr + blknr) = fun i => bms.place (blknr.toNat + i) := by
  funext i
  rw [diskBlocks_eq, Slice.place, target]

/-- A place that a block of the blkmap is mapped to. -/
def Backed (slices : List (Slice w)) (place : Place w) : Prop :=
  ∃ bms ∈ slices, ∃ n, bms.extent.Holds n ∧ bms.backing n = place

/-- The target devices have the blocks in question, and move any run of these in
full. -/
structure Serves (host : Host w) (good : Place w → Prop) : Prop where
  read : ∀ blk start blkcnt, (∀ i < blkcnt.toNat, good (diskBlocks blk start i)) →
    host.blkRead blk start blkcnt = blkcnt
  write : ∀ blk start blkcnt, (∀ i < blkcnt.toNat, good (diskBlocks blk start i)) →
    host.blkWrite blk start blkcnt = blkcnt

theorem moved_self (blkcnt : Lba w) : moved blkcnt blkcnt = blkcnt.toNat := if_pos (BitVec.le_refl _)

/-- Reading slices is copying to the buffer. -/
theorem read_copies {host : Host w} (serves : Serves host good) (store : Store w) :
    Copies good (Slice.read host store) (copyIn store) where
  none := by
    intro buffer offset place
    funext j
    simp [copyIn]
  append := by
    intro buffer offset place k m
    funext j
    simp only [copyIn]
    by_cases later : offset + k ≤ j ∧ j < offset + k + m
    · rw [if_pos later, if_pos (by omega), show k + (j - (offset + k)) = j - offset by omega]
    · rw [if_neg later]
      by_cases early : offset ≤ j ∧ j < offset + k
      · rw [if_pos early, if_pos (by omega)]
      · rw [if_neg early, if_neg (by omega)]
  congr := by
    intro buffer offset place place' k same
    funext j
    simp only [copyIn]
    split
    · rw [same _ (by omega)]
    · rfl
  full := by
    intro bms blknr blkcnt offset buffer inside
    unfold Slice.read
    cases target : bms.target with
    | mem addr remapped => simp only [memBlocks_place target]
    | linear blk lblknr =>
      have places := diskBlocks_place target blknr
      have answer := serves.read blk (lblknr + blknr) blkcnt (by rwa [places])
      simp only [answer, moved_self, places]

/-- The range starts where a slice does, or ends in the slice it starts in. -/
def Aligned (slices : List (Slice w)) (p n : Nat) : Prop :=
  ∀ bms ∈ slices, bms.extent.Holds p → bms.extent.first = p ∨ p + n ≤ bms.extent.stop

/-- A block in a slice that the loop can enter. -/
def Seen (slices : List (Slice w)) (q : Nat) : Prop := ∃ bms ∈ slices, bms.Entered q

section Aligned
variable {bms : Slice w} {rest slices : List (Slice w)} {p n : Nat}

/-- What is asked of the first slice ends in it, and the range with it or the slice. -/
theorem Aligned.share (aligned : Aligned (bms :: rest) p n) (entered : bms.Entered p) :
    p + bms.share n ≤ bms.extent.stop ∧ (bms.share n = n ∨ p + bms.share n = bms.extent.stop) := by
  have low := entered.2.1
  have high := entered.2.2
  have cases := aligned bms List.mem_cons_self entered.2
  simp only [Slice.share, Extent.stop] at *
  omega

theorem Aligned.skip (aligned : Aligned (bms :: rest) p n) : Aligned rest p n :=
  fun other member => aligned other (List.mem_cons_of_mem _ member)

theorem Aligned.advance (proper : Proper (bms :: rest)) (aligned : Aligned (bms :: rest) p n)
    (entered : bms.Entered p) : Aligned rest (p + bms.share n) (n - bms.share n) := by
  intro other member holds
  cases (aligned.share entered).2 with
  | inl done =>
    right
    have := holds.2
    omega
  | inr ends =>
    left
    rw [ends] at holds ⊢
    exact proper.layout.next member holds

/-- The loop stops at the first block that is in no slice it can enter. -/
theorem reach_run (proper : Proper slices) (aligned : Aligned slices p n) :
    Extent.Reach (Seen slices) p n (run slices p n) := by
  induction slices generalizing p n with
  | nil => exact ⟨Nat.zero_le n, fun i none => absurd none (Nat.not_lt_zero i), fun _ => by simp [Seen]⟩
  | cons bms rest ih =>
    by_cases entered : bms.Entered p
    · obtain ⟨inside, ends⟩ := aligned.share entered
      have reach := ih proper.tail (aligned.advance proper entered)
      rw [run_entered entered]
      refine Extent.Reach.append (fun i early => ⟨bms, List.mem_cons_self, entered.1, ?_, ?_⟩) (share_le bms n)
        ⟨reach.le, fun i early => ?_, fun short => ?_⟩
      · exact Nat.le_trans entered.2.1 (Nat.le_add_right _ _)
      · omega
      · obtain ⟨other, member, seen⟩ := reach.all i early
        exact ⟨other, List.mem_cons_of_mem _ member, seen⟩
      · rintro ⟨other, member, seen⟩
        rcases List.mem_cons.mp member with rfl | later
        · have := seen.2.2
          omega
        · exact reach.ends short ⟨other, later, seen⟩
    · have reach := ih proper.tail aligned.skip
      rw [run_skipped entered]
      refine ⟨reach.le, fun i early => ?_, fun short => ?_⟩
      · obtain ⟨other, member, seen⟩ := reach.all i early
        exact ⟨other, List.mem_cons_of_mem _ member, seen⟩
      · rintro ⟨other, member, seen⟩
        rcases List.mem_cons.mp member with rfl | later
        · -- a slice that starts after the position is not before one that holds it
          have notHere : ¬other.extent.Holds p := fun holds => entered ⟨seen.1, holds⟩
          have low := seen.2.1
          have high := seen.2.2
          have above : p < other.extent.first := by
            by_contra below
            exact notHere ⟨by omega, by omega⟩
          obtain ⟨next, member, first⟩ := reach.all 0 (by omega)
          have sorted := (List.pairwise_cons.mp proper.layout.sorted).1 next member
          have := first.2.1
          omega
        · exact reach.ends short ⟨other, later, seen⟩

/-- Every block is moved from or to where its slice has it. -/
theorem spot_backing (proper : Proper slices) (aligned : Aligned slices p n) (early : i < run slices p n) :
    ∃ bms ∈ slices, bms.Entered (p + i) ∧ spot slices p n i = bms.backing (p + i) := by
  induction slices generalizing p n i with
  | nil => exact absurd early (Nat.not_lt_zero i)
  | cons bms rest ih =>
    by_cases entered : bms.Entered p
    · obtain ⟨inside, -⟩ := aligned.share entered
      have low := entered.2.1
      by_cases here : i < bms.share n
      · refine ⟨bms, List.mem_cons_self, ⟨entered.1, by omega, by omega⟩, ?_⟩
        rw [spot_entered entered here, Slice.backing, show p - bms.extent.first + i = p + i - bms.extent.first by omega]
      · rw [run_entered entered] at early
        obtain ⟨other, member, seen, same⟩ := ih proper.tail (aligned.advance proper entered) (i := i - bms.share n) (by omega)
        rw [show p + bms.share n + (i - bms.share n) = p + i by omega] at seen same
        refine ⟨other, List.mem_cons_of_mem _ member, seen, ?_⟩
        rw [← same, ← spot_later entered, Nat.add_sub_cancel' (by omega)]
    · rw [run_skipped entered] at early
      obtain ⟨other, member, seen, same⟩ := ih proper.tail aligned.skip early
      exact ⟨other, List.mem_cons_of_mem _ member, seen, (spot_skipped entered i).trans same⟩

/-- A call for blocks of the slice only. -/
def Ask.Within (ask : Ask w) : Prop := ∀ k < ask.blkcnt.toNat, ask.blknr.toNat + k < ask.slice.blkcnt.toNat

theorem asks_within (proper : Proper slices) (aligned : Aligned slices p n) :
    ∀ ask ∈ asks slices p n, ask.slice ∈ slices ∧ ask.Within := by
  induction slices generalizing p n with
  | nil => simp [asks]
  | cons bms rest ih =>
    intro ask member
    by_cases entered : bms.Entered p
    · rw [asks, if_pos entered] at member
      rcases List.mem_cons.mp member with rfl | later
      · refine ⟨List.mem_cons_self, fun k below => ?_⟩
        obtain ⟨inside, -⟩ := aligned.share entered
        have low := entered.2.1
        have nr := Nat.mod_le (p - bms.extent.first) (2 ^ w)
        have cnt := Nat.mod_le (bms.share n) (2 ^ w)
        simp only [BitVec.toNat_ofNat] at below ⊢
        rw [Extent.stop, Slice.extent_count] at inside
        omega
      · obtain ⟨known, within⟩ := ih proper.tail (aligned.advance proper entered) ask later
        exact ⟨List.mem_cons_of_mem _ known, within⟩
    · rw [asks, if_neg entered] at member
      obtain ⟨known, within⟩ := ih proper.tail aligned.skip ask member
      exact ⟨List.mem_cons_of_mem _ known, within⟩

end Aligned

section Calls
variable {σ : Type} {op : Slice w → (blknr blkcnt : Lba w) → Nat → σ → Lba w × σ}

theorem asked_grows (slices : List (Slice w)) (c : Cursor w) (s : σ) :
    ∀ ask ∈ c.asked, ask ∈ (transfer op slices c s).1.asked := by
  induction slices generalizing c s with
  | nil => exact fun ask member => member
  | cons bms rest ih =>
    intro ask member
    rw [transfer]
    split
    · exact ih _ _ ask (List.mem_append_left _ member)
    · exact ih _ _ ask member

/-- The slice that holds the start is asked from there. -/
theorem asked_first {slices : List (Slice w)} {c : Cursor w} (member : bms ∈ slices)
    (inside : bms.contains c.blknr = true) (only : ∀ other ∈ slices, other.contains c.blknr = true → other = bms)
    (s : σ) : c.ask bms ∈ (transfer op slices c s).1.asked := by
  induction slices with
  | nil => cases member
  | cons first rest ih =>
    rw [transfer]
    split
    · rename_i here
      rw [only first List.mem_cons_self here]
      exact asked_grows _ _ _ _ (List.mem_append_right _ List.mem_cons_self)
    · rename_i elsewhere
      have later : bms ∈ rest := by
        rcases List.mem_cons.mp member with rfl | later
        · exact absurd inside elsewhere
        · exact later
      exact ih later fun other known => only other (List.mem_cons_of_mem _ known)

end Calls

/-- What a read has to return: the length of the longest mapped prefix of the range,
its blocks, and no block was asked of a slice that it does not have. -/
structure ReadsRight (store : Store w) (slices : List (Slice w)) (blknr blkcnt : Lba w)
    (out : Cursor w × (Nat → Block)) : Prop where
  count : Extent.Reach (Extent.Covered Slice.extent slices) blknr.toNat blkcnt.toNat out.1.total.toNat
  data : ∀ i < out.1.total.toNat, ∀ bms ∈ slices, bms.extent.Holds (blknr.toNat + i) →
    out.2 i = store.get (bms.backing (blknr.toNat + i))
  within : ∀ ask ∈ out.1.asked, ask.slice ∈ slices ∧ ask.Within

/-- A slice that ends with the last block number is cut off from the start of the
range by a hole. -/
def MissesEnd (slices : List (Slice w)) (p n : Nat) : Prop :=
  ∀ bms ∈ slices, bms.extent.stop = 2 ^ w → ∀ i < n, bms.extent.Holds (p + i) →
    ∃ j < i, ¬Extent.Covered Slice.extent slices (p + j)

section Reading
variable {host : Host w} {slices : List (Slice w)} {blknr blkcnt : Lba w}

/-- A read from an aligned start is one copy to the buffer. -/
theorem blkRead_eq (proper : Proper slices) (serves : Serves host (Backed slices))
    (backed : ∀ i < run slices blknr.toNat blkcnt.toNat, Backed slices (spot slices blknr.toNat blkcnt.toNat i))
    (store : Store w) (buffer : Nat → Block) :
    (blkRead host store slices blknr blkcnt buffer).1.total.toNat = run slices blknr.toNat blkcnt.toNat ∧
    (blkRead host store slices blknr blkcnt buffer).1.asked = asks slices blknr.toNat blkcnt.toNat ∧
    (blkRead host store slices blknr blkcnt buffer).2 =
      copyIn store buffer 0 (spot slices blknr.toNat blkcnt.toNat) (run slices blknr.toNat blkcnt.toNat) := by
  have zero : (0 : Lba w).toNat = 0 := BitVec.toNat_zero
  have loop := (read_copies serves store).transfer proper (c := .start blknr blkcnt) (.inl rfl) rfl
    (by change (0 : Lba w).toNat + _ < _; rw [zero, Nat.zero_add]; exact blkcnt.isLt) backed buffer
  refine ⟨?_, loop.2.1.trans (List.nil_append _), loop.2.2⟩
  have total := loop.1
  change _ = (0 : Lba w).toNat + _ at total
  rwa [zero, Nat.zero_add] at total

theorem backed_of_aligned (proper : Proper slices) (aligned : Aligned slices p n) (i : Nat)
    (early : i < run slices p n) : Backed slices (spot slices p n i) := by
  obtain ⟨bms, member, seen, same⟩ := spot_backing proper aligned early
  exact ⟨bms, member, p + i, seen.2, same.symm⟩

/-- Where only slices that end with the last block number are left out, nothing is. -/
theorem reach_covered_iff (proper : Proper slices) (reach : Extent.Reach (Seen slices) p n m) :
    Extent.Reach (Extent.Covered Slice.extent slices) p n m ↔ MissesEnd slices p n := by
  constructor
  · intro covered bms member last i below holds
    by_contra hole
    push Not at hole
    -- all blocks up to the one in the last slice are mapped, so it is moved as well
    have moved : i < m := by
      by_contra short
      exact covered.ends (by omega) (by
        rcases Nat.lt_or_eq_of_le (Nat.le_of_not_lt short) with before | same
        · exact hole m before
        · exact same ▸ ⟨bms, member, holds⟩)
    obtain ⟨other, known, seen⟩ := reach.all i moved
    have same := proper.layout.unique known member seen.2 holds
    have fits := seen.1
    rw [same, Slice.Fits, last] at fits
    exact absurd fits (Nat.lt_irrefl _)
  · intro misses
    refine ⟨reach.le, fun i early => ?_, fun short => ?_⟩
    · obtain ⟨bms, member, seen⟩ := reach.all i early
      exact ⟨bms, member, seen.2⟩
    · rintro ⟨bms, member, holds⟩
      have last : bms.extent.stop = 2 ^ w := by
        refine Nat.le_antisymm (proper.inRange bms member) (Nat.le_of_not_lt fun fits => ?_)
        exact reach.ends short ⟨bms, member, fits, holds⟩
      obtain ⟨j, before, hole⟩ := misses bms member last m short holds
      obtain ⟨other, known, seen⟩ := reach.all j before
      exact hole ⟨other, known, seen.2⟩

/-- A read that runs out of the slice it starts in, from inside it, asks that slice
for more than it has. -/
theorem not_within_of_over (host : Host w) (store : Store w) (buffer : Nat → Block) (proper : Proper slices)
    (member : bms ∈ slices) (entered : bms.Entered blknr.toNat) (inside : bms.extent.first ≠ blknr.toNat)
    (beyond : bms.extent.stop < blknr.toNat + blkcnt.toNat) :
    ∃ ask ∈ (blkRead host store slices blknr blkcnt buffer).1.asked, ¬ask.Within := by
  have contains := (contains_eq_entered (proper.inRange bms member) blknr).mpr entered
  refine ⟨_, asked_first (c := .start blknr blkcnt) member contains (fun other known holds => ?_) _, fun within => ?_⟩
  · have seen := (contains_eq_entered (proper.inRange other known) blknr).mp holds
    exact proper.layout.unique known member seen.2 entered.2
  · obtain ⟨nr, cnt⟩ : ((Cursor.start blknr blkcnt).ask bms).blknr.toNat = blknr.toNat - bms.extent.first ∧
        ((Cursor.start blknr blkcnt).ask bms).blkcnt.toNat = bms.share blkcnt.toNat := Cursor.ask_eq rfl entered.2
    have low := entered.2.1
    have high := entered.2.2
    rw [Extent.stop, Slice.extent_count] at high beyond
    have last := within (bms.blkcnt.toNat - (blknr.toNat - bms.extent.first)) (by
      rw [cnt]
      change _ < min blkcnt.toNat bms.blkcnt.toNat
      omega)
    rw [nr] at last
    change _ < bms.blkcnt.toNat at last
    omega

/-- A read is right exactly if its range starts where a slice does or ends in the
slice it starts in, and meets no slice at the end of the block numbers. -/
theorem read_right_iff (proper : Proper slices) (serves : Serves host (Backed slices)) (store : Store w)
    (buffer : Nat → Block) :
    ReadsRight store slices blknr blkcnt (blkRead host store slices blknr blkcnt buffer) ↔
      Aligned slices blknr.toNat blkcnt.toNat ∧ MissesEnd slices blknr.toNat blkcnt.toNat := by
  constructor
  · intro right
    have aligned : Aligned slices blknr.toNat blkcnt.toNat := by
      intro bms member holds
      by_contra neither
      push Not at neither
      by_cases fits : bms.Fits
      · obtain ⟨ask, called, beyond⟩ :=
          not_within_of_over host store buffer proper member ⟨fits, holds⟩ neither.1 neither.2
        exact beyond (right.within ask called).2
      -- a slice at the end of the block numbers is not entered, so that nothing is read
      · have none : run slices blknr.toNat blkcnt.toNat = 0 := run_eq_zero fun other known seen =>
          fits (proper.layout.unique known member seen.2 holds ▸ seen.1)
        have nothing (i : Nat) (early : i < run slices blknr.toNat blkcnt.toNat) :
            Backed slices (spot slices blknr.toNat blkcnt.toNat i) := by omega
        obtain ⟨total, -, -⟩ := blkRead_eq proper serves nothing store buffer
        have count := right.count
        have high := holds.2
        rw [total, none] at count
        exact count.ends (by omega) ⟨bms, member, holds⟩
    refine ⟨aligned, ?_⟩
    obtain ⟨total, -, -⟩ := blkRead_eq proper serves (backed_of_aligned proper aligned) store buffer
    exact (reach_covered_iff proper (reach_run proper aligned)).mp (total ▸ right.count)
  · rintro ⟨aligned, misses⟩
    obtain ⟨total, calls, data⟩ := blkRead_eq proper serves (backed_of_aligned proper aligned) store buffer
    refine ⟨?_, fun i early bms member holds => ?_, ?_⟩
    · rw [total]
      exact (reach_covered_iff proper (reach_run proper aligned)).mpr misses
    · rw [total] at early
      obtain ⟨other, known, seen, same⟩ := spot_backing proper aligned early
      rw [data, copyIn, if_pos ⟨Nat.zero_le i, by omega⟩, Nat.sub_zero, same,
        proper.layout.unique known member seen.2 holds]
    · rw [calls]
      exact asks_within proper aligned

end Reading

/-- Devices that move whatever they are asked to. -/
def eager : Host w := ⟨fun _ _ blkcnt => blkcnt, fun _ _ blkcnt => blkcnt⟩

theorem eager_serves (good : Place w → Prop) : Serves eager good := ⟨fun _ _ _ _ => rfl, fun _ _ _ _ => rfl⟩

/-- Four blocks in memory and four of another device after them. -/
def mixed : List (Slice 64) := [⟨0, 4, .mem 0x1000 false⟩, ⟨4, 4, .linear 7 100⟩]

theorem mixed_proper : Proper mixed where
  layout := Extent.Stacked.layout (by simp [Extent.Stacked, mixed, Slice.extent, Extent.stop])
  inRange := by simp [mixed, Slice.extent, Extent.stop]

/-- All eight blocks, over both slices. -/
theorem read_right_iff_mixed :
    Proper mixed ∧ Serves eager (Backed mixed) ∧
    ∀ store buffer, ReadsRight store mixed 0 8 (blkRead eager store mixed 0 8 buffer) := by
  refine ⟨mixed_proper, eager_serves (Backed mixed), fun store buffer => ?_⟩
  rw [read_right_iff mixed_proper (eager_serves (Backed mixed))]
  have aligned : Aligned mixed 0 8 := by simp [Aligned, mixed, Slice.extent, Extent.Holds, Extent.stop]
  have misses : MissesEnd mixed 0 8 := by simp [MissesEnd, mixed, Slice.extent, Extent.stop]
  exact ⟨aligned, misses⟩

/-- Four blocks from the third on are all read from the memory, where the last two
are none of the blkmap's. -/
theorem read_past_slice :
    Proper mixed ∧ Serves eager (Backed mixed) ∧ ∀ store buffer,
      (blkRead eager store mixed 2 4 buffer).1.asked =
        [⟨⟨0, 4, .mem 0x1000 false⟩, 2, 4⟩, ⟨⟨4, 4, .linear 7 100⟩, 2, 0⟩] ∧
      ¬ReadsRight store mixed 2 4 (blkRead eager store mixed 2 4 buffer) := by
  refine ⟨mixed_proper, eager_serves (Backed mixed), fun store buffer => ?_⟩
  have calls : (blkRead eager store mixed 2 4 buffer).1.asked =
      [⟨⟨0, 4, .mem 0x1000 false⟩, 2, 4⟩, ⟨⟨4, 4, .linear 7 100⟩, 2, 0⟩] := by
    simp [blkRead, transfer, mixed, Slice.contains, Slice.read, Cursor.start, Cursor.ask, Cursor.advance, eager]
  refine ⟨calls, fun right => ?_⟩
  have first := right.within ⟨⟨0, 4, .mem 0x1000 false⟩, 2, 4⟩ (calls ▸ List.mem_cons_self)
  exact absurd (first.2 2 (by decide)) (by decide)

end Uboot
