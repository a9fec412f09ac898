import CrosKernel.Fs.Create
import CrosKernel.Fs.Mount

/-!
# Long names of the cluster before

`find_long_name_entries` stops its walk back at `byte_offset / bytes_per_cluster`, which is the
number of the cluster that holds the entry and not the byte at which that cluster starts.
`LongNamesBefore` says when the walk leaves the cluster.
-/

namespace CrosKernel.Fs

namespace FAT32

variable {fs : FAT32} {start search : Int} {fuel a : Nat} {name name' : Str}
  {ls : List LongNameEntry}

theorem parseLongName_byteOffset {l : LongNameEntry} (h : fs.parseLongName a = some l) :
    l.byteOffset = a := by
  simp only [parseLongName, Option.bind_eq_bind, Option.bind_eq_some_iff] at h
  obtain ⟨first, -, name₁, -, name₂, -, name₃, -, h⟩ := h
  cases h
  rfl

/-- The walk back collects the slot `i` before the first one when this slot and all that were passed
are long names behind the bound. -/
theorem mem_findLongNameLoop (h : fs.findLongNameLoop start fuel search = some ls)
    (hstart : 0 ≤ start) (offset : Nat) :
    (∃ l ∈ ls, l.byteOffset = offset) ↔
      ∃ i : Nat, (offset : Int) = search - fs.bytesPerDirEntry * i ∧
        ∀ j : Nat, j ≤ i → start ≤ search - fs.bytesPerDirEntry * j ∧
          fs.parseAttribute (search - fs.bytesPerDirEntry * j).toNat = some .LONG_NAME := by
  induction fuel generalizing search ls with
  | zero => simp [findLongNameLoop] at h
  | succ fuel ih =>
      have hnone (hstop : ¬ (start ≤ search ∧ fs.parseAttribute search.toNat = some .LONG_NAME))
          (hls : ls = []) : (∃ l ∈ ls, l.byteOffset = offset) ↔
            ∃ i : Nat, (offset : Int) = search - fs.bytesPerDirEntry * i ∧
              ∀ j : Nat, j ≤ i → start ≤ search - fs.bytesPerDirEntry * j ∧
                fs.parseAttribute (search - fs.bytesPerDirEntry * j).toNat = some .LONG_NAME := by
        refine iff_of_false (by simp [hls]) ?_
        rintro ⟨i, -, hall⟩
        have hzero := hall 0 (Nat.zero_le i)
        simp only [Nat.cast_zero, mul_zero, sub_zero] at hzero
        exact hstop hzero
      rw [findLongNameLoop] at h
      split at h
      next hle =>
        cases htype : fs.parseAttribute search.toNat with
        | none => simp [htype] at h
        | some type =>
            by_cases hlong : type = .LONG_NAME
            · subst hlong
              simp only [htype, Option.bind_eq_bind, Option.bind_some,
                Option.bind_eq_some_iff] at h
              obtain ⟨l, hl, rest, hrest, h⟩ := h
              cases h
              have hoffset := parseLongName_byteOffset hl
              have hback (j : Nat) :
                  search - fs.bytesPerDirEntry - fs.bytesPerDirEntry * (j : Int) =
                  search - fs.bytesPerDirEntry * ((j + 1 : Nat) : Int) := by
                push_cast
                ring
              have hrec := ih hrest
              simp only [hback] at hrec
              constructor
              · rintro ⟨l', hl', rfl⟩
                rcases List.mem_cons.1 hl' with rfl | hl'
                · refine ⟨0, by simp only [hoffset, Nat.cast_zero]; omega, fun j hj => ?_⟩
                  obtain rfl := Nat.le_zero.1 hj
                  simpa using ⟨hle, htype⟩
                · obtain ⟨i, hi, hall⟩ := hrec.1 ⟨l', hl', rfl⟩
                  refine ⟨i + 1, hi, fun j hj => ?_⟩
                  cases j with
                  | zero => simpa using ⟨hle, htype⟩
                  | succ j => exact hall j (Nat.le_of_succ_le_succ hj)
              · rintro ⟨i, hi, hall⟩
                cases i with
                | zero =>
                    refine ⟨l, List.mem_cons_self, ?_⟩
                    simp only [Nat.cast_zero, mul_zero, sub_zero] at hi
                    rw [hoffset, ← hi, Int.toNat_natCast]
                | succ i =>
                    obtain ⟨l', hl', heq⟩ :=
                      hrec.2 ⟨i, hi, fun j hj => hall (j + 1) (Nat.succ_le_succ hj)⟩
                    exact ⟨l', List.mem_cons_of_mem l hl', heq⟩
            · refine hnone (fun hstop => hlong (Option.some.inj (htype.symm.trans hstop.2))) ?_
              cases type <;> simp [htype] at h hlong <;> exact h
      next hle =>
        exact hnone (fun hstop => hle hstop.1) (Option.some.inj h).symm

theorem markLast_byteOffsets (ls : List LongNameEntry) :
    (markLast ls).map LongNameEntry.byteOffset = ls.map LongNameEntry.byteOffset := by
  induction ls with
  | nil => rfl
  | cons l rest ih =>
      cases rest with
      | nil => rfl
      | cons m rest => simpa [markLast] using ih

/-- Every slot of the cluster in front of the one at `a` is a long name, and so is the last slot in
front of the cluster, which lies behind the byte whose offset is the cluster's number. -/
def LongNamesBefore (fs : FAT32) (a : Nat) : Prop :=
  a / fs.bytesPerCluster + 32 * (a % fs.bytesPerCluster / 32 + 1) ≤ a ∧
    ∀ j ≤ a % fs.bytesPerCluster / 32, fs.parseAttribute (a - 32 * (j + 1)) = some .LONG_NAME

theorem mem_findLongNameEntries (hsize : fs.bytesPerDirEntry = 32)
    (h : fs.findLongNameEntries a name = some (name', ls)) (offset : Nat) :
    (∃ l ∈ ls, l.byteOffset = offset) ↔
      ∃ i, offset + 32 * (i + 1) = a ∧ ∀ j ≤ i, a / fs.bytesPerCluster + 32 * (j + 1) ≤ a ∧
        fs.parseAttribute (a - 32 * (j + 1)) = some .LONG_NAME := by
  simp only [findLongNameEntries, Option.bind_eq_bind, Option.bind_eq_some_iff] at h
  obtain ⟨found, hloop, h⟩ := h
  have hmem : (∃ l ∈ ls, l.byteOffset = offset) ↔ ∃ l ∈ found, l.byteOffset = offset := by
    have hiff (list : List LongNameEntry) : (∃ l ∈ list, l.byteOffset = offset) ↔
        offset ∈ list.map LongNameEntry.byteOffset := List.mem_map.symm
    split at h
    next hempty =>
      cases h
      rw [List.isEmpty_iff.1 hempty]
    next =>
      cases h
      rw [hiff, hiff, markLast_byteOffsets]
  have hslot (j : Nat) : (a : Int) - fs.bytesPerDirEntry - fs.bytesPerDirEntry * (j : Int) =
      (a : Int) - 32 * (j + 1 : Nat) := by
    rw [hsize]
    push_cast
    ring
  have hnat (j : Nat) : ((a : Int) - 32 * (j + 1 : Nat)).toNat = a - 32 * (j + 1) := by omega
  rw [hmem, mem_findLongNameLoop hloop (Int.natCast_nonneg _)]
  simp only [hslot, hnat]
  constructor
  · rintro ⟨i, hi, hall⟩
    refine ⟨i, by omega, fun j hj => ⟨?_, (hall j hj).2⟩⟩
    have hle := (hall j hj).1
    omega
  · rintro ⟨i, hi, hall⟩
    refine ⟨i, by omega, fun j hj => ⟨?_, (hall j hj).2⟩⟩
    have hle := (hall j hj).1
    omega

/-- For the slots of a volume the search returns. The entries it collects lie in the cluster of the
one at `a` unless the long names reach back over the start of the cluster. -/
theorem findLongNameEntries_sameCluster_iff (hsize : fs.bytesPerDirEntry = 32)
    (hpos : 0 < fs.bytesPerCluster) (a : Nat) (name : Str) :
    (fs.HasSlots → 32 ∣ a → (fs.findLongNameEntries a name).isSome) ∧
    ∀ name' ls, fs.findLongNameEntries a name = some (name', ls) →
      ((∀ l ∈ ls, l.byteOffset / fs.bytesPerCluster = a / fs.bytesPerCluster) ↔
        ¬ fs.LongNamesBefore a) := by
  have hdiv := Nat.div_add_mod a fs.bytesPerCluster
  have hmod := Nat.mod_lt a hpos
  refine ⟨fun hslots ha => ?_, fun name' ls h => ⟨fun hsame hbefore => ?_, fun hnot l hl => ?_⟩⟩
  · rw [FAT32.findLongNameEntries_isSome name]
    exact hslots.findLongNameEntries_isSome ha
  · have hfirst := hbefore.1
    have hle := (Nat.le_add_left _ _).trans hfirst
    obtain ⟨l, hl, hoffset⟩ := (mem_findLongNameEntries hsize h
      (a - 32 * (a % fs.bytesPerCluster / 32 + 1))).2
        ⟨a % fs.bytesPerCluster / 32, Nat.sub_add_cancel hle,
          fun j hj => ⟨by omega, hbefore.2 j hj⟩⟩
    have hbelow := Nat.div_mul_le_self l.byteOffset fs.bytesPerCluster
    rw [hsame l hl, Nat.mul_comm] at hbelow
    omega
  · obtain ⟨i, hi, hall⟩ := (mem_findLongNameEntries hsize h l.byteOffset).1 ⟨l, hl, rfl⟩
    have hlt : i < a % fs.bytesPerCluster / 32 := by
      by_contra hge
      exact hnot ⟨(hall _ (Nat.not_lt.1 hge)).1, fun j hj =>
        (hall j (hj.trans (Nat.not_lt.1 hge))).2⟩
    refine Nat.div_eq_of_lt_le ?_ ?_
    · rw [Nat.mul_comm]
      omega
    · rw [Nat.add_mul, Nat.one_mul, Nat.mul_comm]
      omega

/-- A file in the third slot of the cluster 3. -/
theorem findLongNameEntries_sameCluster_iff_file :
    (treeVolume.HasSlots → 32 ∣ 10 * 512 + 64 →
      (treeVolume.findLongNameEntries (10 * 512 + 64) [0x66]).isSome) ∧
    ∀ name' ls, treeVolume.findLongNameEntries (10 * 512 + 64) [0x66] = some (name', ls) →
      ((∀ l ∈ ls, l.byteOffset / treeVolume.bytesPerCluster =
          (10 * 512 + 64) / treeVolume.bytesPerCluster) ↔
        ¬ treeVolume.LongNamesBefore (10 * 512 + 64)) :=
  findLongNameEntries_sameCluster_iff rfl (by decide) (10 * 512 + 64) [0x66]

/-- The volume with a file in the first slot of the cluster 3. The byte 11 of the slot before it,
the last of the cluster 2, is the attribute of a long name. -/
def longNameVolume : FAT32 :=
  { treeVolume with
    di := { treeVolume.di with
            disk := Function.update (Function.update treeVolume.di.disk (10 * 512 - 32 + 11) 0x0F)
              (10 * 512 + 11) 0x20 } }

/-- The slot in the cluster 2 becomes a long name of the file in the cluster 3. -/
theorem longName_of_cluster_before :
    ¬ ∀ (fs : FAT32) (a : Nat) (name name' : Str) (ls : List LongNameEntry),
      fs.bytesPerDirEntry = 32 → 0 < fs.bytesPerCluster →
      (fs.parseAttribute a = some .FILE ∨ fs.parseAttribute a = some .DIRECTORY) →
      fs.findLongNameEntries a name = some (name', ls) →
      ∀ l ∈ ls, l.byteOffset / fs.bytesPerCluster = a / fs.bytesPerCluster := by
  intro hall
  have hfound : (longNameVolume.findLongNameEntries (10 * 512) []).map
      (fun r => r.2.map LongNameEntry.byteOffset) = some [10 * 512 - 32] := by decide +kernel
  obtain ⟨⟨name', ls⟩, hcall, hls⟩ := Option.map_eq_some_iff.1 hfound
  obtain ⟨l, hl, hoffset⟩ := List.mem_map.1
    (show 10 * 512 - 32 ∈ ls.map LongNameEntry.byteOffset from hls ▸ List.mem_cons_self)
  have hsame := hall longNameVolume (10 * 512) [] name' ls rfl (by decide)
    (.inl (by decide +kernel)) hcall l hl
  rw [hoffset] at hsame
  exact absurd hsame (by decide)

end FAT32

end CrosKernel.Fs
