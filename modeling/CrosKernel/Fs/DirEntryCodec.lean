import CrosKernel.Fs.DirEntrySlots

/-!
# The codec of directory entries

What `write_dir_entry` stores for a file is what the constructor of `Entry` reads back. A long name
is cut into chunks of 13 characters, one a slot, and each chunk into pieces of 5, 6 and 2
characters. `HoldsPart` is a piece on disk, `HoldsLongName` a chunk in its slot and `HoldsEntry` the
short entry.
-/

namespace CrosKernel.Fs

open Lib

namespace FAT32

variable {fs fs' : FAT32} {a : Nat} {b : Buffer} {memory memory' : Nat → UInt8} {part : Str}

/-! ## Pieces of a long name -/

/-- The two bytes of the character `index` of a piece: the character, a terminator behind the last
one, and filler behind the terminator. -/
def charPair (part : Str) (index : Nat) : UInt8 × UInt8 :=
  if index = part.length then (0, 0)
  else if index > part.length then (0xFF, 0xFF)
  else (part.getD index 0, 0)

/-- `count` characters of a piece, from the character `index` on, are stored from `offset`. -/
def HoldsPart (memory : Nat → UInt8) (offset : Nat) (part : Str) (index count : Nat) : Prop :=
  ∀ i, i < count → memory (offset + 2 * i) = (charPair part (index + i)).1 ∧
    memory (offset + 2 * i + 1) = (charPair part (index + i)).2

theorem HoldsPart.congr {offset offset' index count : Nat}
    (h : HoldsPart memory offset part index count)
    (heq : ∀ j, j < 2 * count → memory' (offset' + j) = memory (offset + j)) :
    HoldsPart memory' offset' part index count := by
  intro i hi
  obtain ⟨hfirst, hsecond⟩ := h i hi
  rw [Nat.add_assoc] at hsecond ⊢
  exact ⟨(heq _ (by omega)).trans hfirst, (heq _ (by omega)).trans hsecond⟩

/-- The first character of a stored piece, and the piece behind it. -/
theorem HoldsPart.uncons {offset index count : Nat}
    (h : HoldsPart memory offset part index (count + 1)) :
    memory offset = (charPair part index).1 ∧ memory (offset + 1) = (charPair part index).2 ∧
      HoldsPart memory (offset + 2) part (index + 1) count := by
  refine ⟨(h 0 (by omega)).1, (h 0 (by omega)).2, fun i hi => ?_⟩
  have hnext := h (i + 1) (by omega)
  rwa [show offset + 2 * (i + 1) = offset + 2 + 2 * i by omega,
    show index + (i + 1) = index + 1 + i by omega] at hnext

/-- One pass of a writing loop stores one character in bytes that were cleared. -/
theorem writeChar_spec (part : Str) {offset : Nat} (index : Nat) (hsize : offset + 2 ≤ b.size)
    (hzero : b.data (offset + 1) = 0) :
    ∃ b', (if index = part.length then b.set offset 0
        else if index > part.length then do
          let b ← b.set offset 0xFF
          b.set (offset + 1) 0xFF
        else b.set offset (part.getD index 0)) = some b' ∧
      Buffer.ChangedIn offset (offset + 2) b b' ∧
      b'.data offset = (charPair part index).1 ∧
        b'.data (offset + 1) = (charPair part index).2 := by
  unfold charPair
  have hfirst := fun byte => Buffer.set_spec (b := b) offset byte (by omega)
  by_cases heq : index = part.length
  · obtain ⟨b', hset, hchanged, hbyte⟩ := hfirst 0
    simp only [heq, if_true]
    exact ⟨b', hset, hchanged.mono (by omega) (by omega), hbyte,
      (hchanged.data_eq _ (by omega)).trans hzero⟩
  · by_cases hgt : index > part.length
    · obtain ⟨b1, hset, hchanged, hbyte⟩ := hfirst 0xFF
      have hsize' : offset + 1 < b1.size := by
        rw [hchanged.size_eq]
        omega
      obtain ⟨b2, hset', hchanged', hbyte'⟩ := Buffer.set_spec _ 0xFF hsize'
      simp only [heq, hgt, if_false, if_true, hset, Option.bind_eq_bind, Option.bind_some]
      exact ⟨b2, hset', (hchanged.mono (by omega) (by omega)).trans
        (hchanged'.mono (by omega) (by omega)),
        (hchanged'.data_eq _ (by omega)).trans hbyte, hbyte'⟩
    · obtain ⟨b', hset, hchanged, hbyte⟩ := hfirst (part.getD index 0)
      simp only [heq, hgt, if_false]
      exact ⟨b', hset, hchanged.mono (by omega) (by omega), hbyte,
        (hchanged.data_eq _ (by omega)).trans hzero⟩

/-- A writing loop stores its piece in bytes that were cleared. -/
theorem writeNamePart_spec (part : Str) (offset index count : Nat)
    (hsize : offset + 2 * count ≤ b.size) (hzero : ∀ j, j < 2 * count → b.data (offset + j) = 0) :
    ∃ b', writeNamePart part b offset index count = some b' ∧
      Buffer.ChangedIn offset (offset + 2 * count) b b' ∧
      HoldsPart b'.data offset part index count := by
  induction count generalizing b offset index with
  | zero => exact ⟨b, rfl, .refl _ _ _, fun i hi => by omega⟩
  | succ count ih =>
      obtain ⟨b1, hchar, hchanged, hfirst, hsecond⟩ :=
        writeChar_spec part index (by omega) (hzero 1 (by omega))
      have hsize' : offset + 2 + 2 * count ≤ b1.size := by
        rw [hchanged.size_eq]
        omega
      have hzero' : ∀ j, j < 2 * count → b1.data (offset + 2 + j) = 0 := by
        intro j hj
        rw [hchanged.data_eq _ (by omega), Nat.add_assoc, hzero _ (by omega)]
      obtain ⟨b2, hrest, hchanged', hholds⟩ := ih _ (index + 1) hsize' hzero'
      refine ⟨b2, ?_, (hchanged.mono (by omega) (by omega)).trans
        (hchanged'.mono (by omega) (by omega)), ?_⟩
      · rw [writeNamePart, hchar]
        exact hrest
      · intro i hi
        cases i with
        | zero =>
            exact ⟨(hchanged'.data_eq _ (by omega)).trans hfirst,
              (hchanged'.data_eq _ (by omega)).trans hsecond⟩
        | succ i =>
            have hnext := hholds i (by omega)
            rwa [show offset + 2 * (i + 1) = offset + 2 + 2 * i by omega,
              show index + (i + 1) = index + 1 + i by omega]

/-- A reading loop stops in the filler. -/
theorem parseNamePart_filler {offset index count : Nat} (name : Str)
    (hsize : offset + 2 * count ≤ b.size) (hholds : HoldsPart b.data offset part index count)
    (hgt : part.length < index) : parseNamePart b offset count name = some name := by
  cases count with
  | zero => rfl
  | succ count =>
      obtain ⟨hfirst, hsecond, -⟩ := hholds.uncons
      have hpair : charPair part index = (0xFF, 0xFF) := by
        rw [charPair, if_neg (by omega), if_pos hgt]
      rw [hpair] at hfirst hsecond
      have hget : b.get offset = some 0xFF ∧ b.get (offset + 1) = some 0xFF :=
        ⟨(if_pos (by omega)).trans (congrArg some hfirst),
          (if_pos (by omega)).trans (congrArg some hsecond)⟩
      simp [parseNamePart, hget.1, hget.2, charsToUnicode]

/-- A reading loop appends the rest of a stored piece. -/
theorem parseNamePart_spec {offset index count : Nat} (name : Str)
    (hsize : offset + 2 * count ≤ b.size) (hholds : HoldsPart b.data offset part index count)
    (hnul : 0 ∉ part) (hle : index ≤ part.length) (hfits : part.length ≤ index + count) :
    parseNamePart b offset count name = some (name ++ part.drop index) := by
  induction count generalizing offset index name with
  | zero =>
      have hdrop : part.drop index = [] := List.drop_eq_nil_of_le (by omega)
      simp [parseNamePart, hdrop]
  | succ count ih =>
      obtain ⟨hfirst, hsecond, hrest⟩ := hholds.uncons
      have hget : b.get offset = some (charPair part index).1 ∧
          b.get (offset + 1) = some (charPair part index).2 :=
        ⟨(if_pos (by omega)).trans (congrArg some hfirst),
          (if_pos (by omega)).trans (congrArg some hsecond)⟩
      have hsize' : offset + 2 + 2 * count ≤ b.size := by omega
      rw [parseNamePart, hget.1, hget.2]
      by_cases heq : index = part.length
      · -- the terminator adds nothing, and filler follows
        have hpair : charPair part index = (0, 0) := if_pos heq
        have hdrop : part.drop index = [] := List.drop_eq_nil_of_le (by omega)
        simp only [hpair, Option.bind_eq_bind, Option.bind_some]
        rw [if_pos (by decide), parseNamePart_filler _ hsize' hrest (by omega)]
        simp [Str.push, hdrop]
      · have hlt : index < part.length := by omega
        have hpair : charPair part index = (part[index], 0) := by
          rw [charPair, if_neg heq, if_neg (by omega), List.getD_eq_getElem?_getD,
            List.getElem?_eq_getElem hlt, Option.getD_some]
        have hne : part[index] ≠ 0 := fun h => hnul (h ▸ List.getElem_mem hlt)
        have hunicode : charsToUnicode part[index] 0 ≠ 0xFFFF := by
          have hbyte := part[index].toNat_lt
          simp only [charsToUnicode, UInt8.toNat_zero, Nat.or_zero]
          omega
        simp only [hpair, Option.bind_eq_bind, Option.bind_some]
        rw [if_pos hunicode, ih _ hsize' hrest (by omega) (by omega), Str.push, if_neg hne,
          List.append_assoc, List.singleton_append, List.getElem_cons_drop]

/-! ## A chunk in its slot -/

theorem substrFrom_eq (s : Str) (startIndex : Nat) :
    s.substrFrom startIndex = s.drop startIndex := by
  unfold Str.substrFrom
  split
  next h => exact (List.drop_eq_nil_of_le h).symm
  next => rfl

theorem substr_eq {s : Str} {startIndex endIndex : Nat} (hlt : startIndex < endIndex)
    (hle : endIndex ≤ s.length) :
    s.substr startIndex endIndex = (s.drop startIndex).take (endIndex - startIndex) :=
  if_neg (by omega)

/-- How a chunk is cut. -/
theorem nameParts_eq {name : Str} (h : name.length ≤ 13) :
    nameParts name = (name.take 5, (name.drop 5).take 6, name.drop 11) := by
  have hdrop : ∀ n, name.length ≤ n → name.drop n = [] := fun n => List.drop_eq_nil_of_le
  unfold nameParts
  simp only [substrFrom_eq]
  split
  next h5 =>
    rw [hdrop 5 h5, hdrop 11 (by omega), List.take_of_length_le h5]
    rfl
  next h5 =>
    have hfirst : name.substr 0 5 = name.take 5 := substr_eq (by omega) (by omega)
    split
    next h11 =>
      have hsecond : (name.drop 5).take 6 = name.drop 5 :=
        List.take_of_length_le (by rw [List.length_drop]; omega)
      rw [hfirst, hsecond, hdrop 11 h11]
    next h11 =>
      rw [hfirst, substr_eq (by omega) (by omega)]

/-- The pieces of a chunk make up the chunk. -/
theorem nameParts_append {name : Str} (h : name.length ≤ 13) :
    (nameParts name).1 ++ (nameParts name).2.1 ++ (nameParts name).2.2 = name := by
  have hrest : name.drop 11 = (name.drop 5).drop 6 := by rw [List.drop_drop]
  rw [nameParts_eq h, hrest, List.append_assoc, List.take_append_drop, List.take_append_drop]

/-- The slot at `a` holds the chunk `name`. -/
structure HoldsLongName (memory : Nat → UInt8) (a : Nat) (name : Str) : Prop where
  attr : memory (a + 11) = 0x0F
  part1 : HoldsPart memory (a + 1) (nameParts name).1 0 5
  part2 : HoldsPart memory (a + 14) (nameParts name).2.1 0 6
  part3 : HoldsPart memory (a + 28) (nameParts name).2.2 0 2

theorem HoldsLongName.congr {a' : Nat} {name : Str} (h : HoldsLongName memory a name)
    (heq : ∀ j, j < 32 → memory' (a' + j) = memory (a + j)) : HoldsLongName memory' a' name where
  attr := (heq 11 (by omega)).trans h.attr
  part1 := h.part1.congr fun j hj => by simpa [Nat.add_assoc] using heq (1 + j) (by omega)
  part2 := h.part2.congr fun j hj => by simpa [Nat.add_assoc] using heq (14 + j) (by omega)
  part3 := h.part3.congr fun j hj => by simpa [Nat.add_assoc] using heq (28 + j) (by omega)

/-- A piece in the buffer of the sector of its slot is the piece on disk. -/
theorem holdsPart_read (hvalid : fs.Valid) {offset index count : Nat} {part : Str} :
    HoldsPart (fs.di.read (a / fs.bytesPerSector)).data (offset + a % fs.bytesPerSector) part index
      count ↔ HoldsPart fs.di.disk (a + offset) part index count := by
  have hread := (read_slot hvalid a).2
  have hsame : ∀ j, fs.di.disk (a + offset + j) =
      (fs.di.read (a / fs.bytesPerSector)).data (offset + a % fs.bytesPerSector + j) := by
    intro j
    rw [Nat.add_comm offset, Nat.add_assoc, Nat.add_assoc, hread]
  exact ⟨fun h => h.congr fun j _ => hsame j, fun h => h.congr fun j _ => (hsame j).symm⟩

/-- `write_long_name_entry` stores its chunk. -/
theorem writeLongNameEntry_spec (hsize : fs.SlotSize) (parentName : Str) (past : Nat → Nat → UInt8)
    (l : LongNameEntry) (ha : IsSlot l.byteOffset) :
    ∃ fs', fs.writeLongNameEntry parentName past l = some fs' ∧
      fs.WritesIn l.byteOffset (l.byteOffset + 32) fs' ∧
        HoldsLongName fs'.di.disk l.byteOffset l.name := by
  obtain ⟨fs1, hclear, hwrite, hzero⟩ := clearEntry_spec hsize ha
  have hsize1 := hwrite.slotSize hsize
  obtain ⟨hread, hdata⟩ := read_slot hsize1.toValid l.byteOffset
  have hfits := ha.fits hsize1.toValid
  generalize hoffset : l.byteOffset % fs1.bytesPerSector = offset at hdata hfits
  generalize hbase : fs1.di.read (l.byteOffset / fs1.bytesPerSector) = base at hread hdata
  have hcleared : ∀ j, j < 32 → base.data (offset + j) = 0 := fun j hj =>
    (hdata j).trans (hzero j hj)
  -- the seven stores into the buffer
  obtain ⟨b1, hset1, hc1, -⟩ := Buffer.set_spec (b := base) offset
    (if l.last then UInt8.ofNat l.order ||| 0x40 else UInt8.ofNat l.order) (by omega)
  have hz1 : ∀ j, 1 ≤ j → j < 32 → b1.data (offset + j) = 0 := fun j h1 hj =>
    (hc1.data_eq _ (by omega)).trans (hcleared j hj)
  have hs1 := hc1.size_eq.trans hread
  obtain ⟨b2, hset2, hc2, hpart1⟩ := writeNamePart_spec (b := b1) (nameParts l.name).1
    (offset + 1) 0 5 (by omega) (fun j hj => by
      simpa [Nat.add_assoc] using hz1 (1 + j) (by omega) (by omega))
  have hs2 := hc2.size_eq.trans hs1
  obtain ⟨b3, hset3, hc3, hpart2⟩ := writeNamePart_spec (b := b2) (nameParts l.name).2.1
    (offset + 14) 0 6 (by omega) (fun j hj => by
      rw [hc2.data_eq _ (by omega)]
      simpa [Nat.add_assoc] using hz1 (14 + j) (by omega) (by omega))
  have hs3 := hc3.size_eq.trans hs2
  obtain ⟨b4, hset4, hc4, hpart3⟩ := writeNamePart_spec (b := b3) (nameParts l.name).2.2
    (offset + 28) 0 2 (by omega) (fun j hj => by
      rw [hc3.data_eq _ (by omega), hc2.data_eq _ (by omega)]
      simpa [Nat.add_assoc] using hz1 (28 + j) (by omega) (by omega))
  have hs4 := hc4.size_eq.trans hs3
  obtain ⟨b5, hset5, hc5, hattr⟩ := Buffer.set_spec (b := b4) (offset + 11) 0x0F (by omega)
  have hs5 := hc5.size_eq.trans hs4
  obtain ⟨b6, hset6, hc6, -⟩ := Buffer.set_spec (b := b5) (offset + 13)
    (checksum (longToShortName parentName (past 0) 8 ++ longToShortName [] (past 1) 3)) (by omega)
  have hchanged : Buffer.ChangedIn offset (offset + 32) base b6 :=
    (((((hc1.mono (by omega) (by omega)).trans (hc2.mono (by omega) (by omega))).trans
      (hc3.mono (by omega) (by omega))).trans (hc4.mono (by omega) (by omega))).trans
      (hc5.mono (by omega) (by omega))).trans (hc6.mono (by omega) (by omega))
  have hholds : HoldsLongName b6.data offset l.name :=
    { attr := (hc6.data_eq _ (by omega)).trans hattr
      part1 := hpart1.congr fun j hj => by
        rw [hc6.data_eq _ (by omega), hc5.data_eq _ (by omega), hc4.data_eq _ (by omega),
          hc3.data_eq _ (by omega)]
      part2 := hpart2.congr fun j hj => by
        rw [hc6.data_eq _ (by omega), hc5.data_eq _ (by omega), hc4.data_eq _ (by omega)]
      part3 := hpart3.congr fun j hj => by
        rw [hc6.data_eq _ (by omega), hc5.data_eq _ (by omega)] }
  subst hoffset hbase
  obtain ⟨hwrite', hdisk⟩ := write_slot hsize1.toValid ha hchanged
  refine ⟨_, ?_, hwrite.trans hwrite', hholds.congr hdisk⟩
  simp only [writeLongNameEntry, hclear, Option.bind_eq_bind, Option.bind_some, hset1, hset2, hset3,
    hset4, hset5, hset6]
  rfl


/-- `parse_long_name` reads back the chunk of its slot. -/
theorem parseLongName_spec (hvalid : fs.Valid) (ha : IsSlot a) {name : Str}
    (hholds : HoldsLongName fs.di.disk a name) (hnul : 0 ∉ name) (hlength : name.length ≤ 13) :
    ∃ order, fs.parseLongName a =
      some { name := name, byteOffset := a, order := order, last := false } := by
  obtain ⟨hread, -⟩ := read_slot hvalid a
  have hfits := hread ▸ ha.fits hvalid
  have happend := nameParts_append hlength
  have hparts := nameParts_eq hlength
  have hnul1 : 0 ∉ (nameParts name).1 := fun h => hnul (by rw [← happend]; simp [h])
  have hnul2 : 0 ∉ (nameParts name).2.1 := fun h => hnul (by rw [← happend]; simp [h])
  have hnul3 : 0 ∉ (nameParts name).2.2 := fun h => hnul (by rw [← happend]; simp [h])
  have hpart1 := parseNamePart_spec [] (by omega) ((holdsPart_read hvalid).2 hholds.part1) hnul1
    (Nat.zero_le _) (by rw [hparts]; simp)
  have hpart2 := parseNamePart_spec ([] ++ (nameParts name).1) (by omega)
    ((holdsPart_read hvalid).2 hholds.part2) hnul2 (Nat.zero_le _) (by rw [hparts]; simp)
  have hpart3 := parseNamePart_spec ([] ++ (nameParts name).1 ++ (nameParts name).2.1) (by omega)
    ((holdsPart_read hvalid).2 hholds.part3) hnul3 (Nat.zero_le _)
    (by rw [hparts]; simp; omega)
  simp only [List.drop_zero, List.nil_append] at hpart1 hpart2 hpart3
  rw [happend] at hpart3
  have hfirst : ∃ byte, (fs.di.read (a / fs.bytesPerSector)).get (0 + a % fs.bytesPerSector) =
      some byte := ⟨_, if_pos (by omega)⟩
  obtain ⟨byte, hbyte⟩ := hfirst
  refine ⟨(byte &&& 0x1F).toNat, ?_⟩
  simp only [parseLongName, hbyte, hpart1, hpart2, hpart3, Option.bind_eq_bind, Option.bind_some]
  rfl

/-! ## All chunks of a name -/

/-- The chunks of a name lie in the slots from `first` on, the first chunk in the last slot. -/
def HoldsNames (memory : Nat → UInt8) (first : Nat) : List Str → Prop
  | [] => True
  | name :: rest =>
      HoldsLongName memory (first + 32 * rest.length) name ∧ HoldsNames memory first rest

/-- Long name entries for the slots from `first` on, in the same order. -/
def InSlots (first : Nat) : List LongNameEntry → Prop
  | [] => True
  | l :: rest => l.byteOffset = first + 32 * rest.length ∧ InSlots first rest

theorem HoldsNames.congr {first : Nat} {names : List Str} (h : HoldsNames memory first names)
    (heq : ∀ x, first ≤ x → x < first + 32 * names.length → memory' x = memory x) :
    HoldsNames memory' first names := by
  induction names with
  | nil => trivial
  | cons name rest ih =>
      rw [List.length_cons] at heq
      exact ⟨h.1.congr fun j hj => heq _ (by omega) (by omega),
        ih h.2 fun x hlow hhigh => heq x hlow (by omega)⟩

/-- The loop of `write_dir_entry` stores the chunks. -/
theorem writeLongNames_spec (hsize : fs.SlotSize) (parentName : Str)
    (past : Nat → Nat → Nat → UInt8)
    (i : Nat) {first : Nat} {ls : List LongNameEntry} (hfirst : IsSlot first)
    (hslots : InSlots first ls) :
    ∃ fs', writeLongNames parentName past fs i ls = some fs' ∧
      fs.WritesIn first (first + 32 * ls.length) fs' ∧
      HoldsNames fs'.di.disk first (ls.map LongNameEntry.name) := by
  induction ls generalizing fs i with
  | nil => exact ⟨fs, rfl, .refl _ _ _, trivial⟩
  | cons l rest ih =>
      obtain ⟨hoffset, hrest⟩ := hslots
      have hslot : IsSlot l.byteOffset := hoffset ▸ isSlot_add.2 hfirst
      obtain ⟨fs1, hwrite, hwrites, hholds⟩ :=
        writeLongNameEntry_spec hsize parentName (past i) l hslot
      obtain ⟨fs2, hloop, hwrites', hholds'⟩ := ih (hwrites.slotSize hsize) (i + 1) hrest
      rw [hoffset] at hwrites hholds
      refine ⟨fs2, by simp [writeLongNames, hwrite, hloop], ?_, ?_, hholds'⟩
      · rw [List.length_cons]
        exact (hwrites.mono (by omega) (by omega)).trans (hwrites'.mono (by omega) (by omega))
      · rw [List.length_map]
        exact hholds.congr fun j hj => hwrites'.outside _ (by omega)

/-- Walking back from the slot of a file, `find_long_name_entries` finds the chunks that lie there.
-/
theorem findLongNameLoop_spec (hsize : fs.SlotSize) {first : Nat} {names : List Str}
    (hfirst : IsSlot first) {start : Nat} (hstart : start ≤ first)
    (hholds : HoldsNames fs.di.disk first names)
    (hnames : ∀ name ∈ names, 0 ∉ name ∧ name.length ≤ 13)
    (hbefore : 32 ≤ first → fs.parseAttribute (first - 32) ≠ some .LONG_NAME) (fuel : Nat)
    (hfuel : names.length < fuel) :
    ∃ ls, fs.findLongNameLoop start fuel ((first + 32 * names.length : Nat) - 32 : Int) = some ls ∧
      ls.map LongNameEntry.name = names := by
  induction names generalizing fuel with
  | nil =>
      obtain ⟨n, rfl⟩ : ∃ n, fuel = n + 1 := ⟨fuel - 1, by simp at hfuel; omega⟩
      refine ⟨[], ?_, rfl⟩
      rw [findLongNameLoop]
      split
      next hle =>
        -- the slot before the chunks
        have hge : 32 ≤ first := by
          simp only [List.length_nil] at hle
          omega
        have hslot : IsSlot (first - 32) := by
          unfold IsSlot at hfirst ⊢
          omega
        have hnat : ((first + 32 * ([] : List Str).length : Nat) - 32 : Int).toNat =
            first - 32 := by
          simp only [List.length_nil]
          omega
        have hattr := parseAttribute_eq hsize.toValid hslot
        have hne := hattr ▸ hbefore hge
        rw [hnat, hattr, Option.bind_eq_bind, Option.bind_some]
        split
        next heq => exact absurd (congrArg some heq) hne
        next => rfl
      next => rfl
  | cons name rest ih =>
      obtain ⟨n, rfl⟩ : ∃ n, fuel = n + 1 := ⟨fuel - 1, by simp at hfuel; omega⟩
      obtain ⟨hhead, htail⟩ := hholds
      obtain ⟨hnul, hlength⟩ := hnames name (by simp)
      have hslot : IsSlot (first + 32 * rest.length) := isSlot_add.2 hfirst
      have hattr := parseAttribute_eq hsize.toValid hslot
      rw [hhead.attr] at hattr
      obtain ⟨order, hparse⟩ := parseLongName_spec hsize.toValid hslot hhead hnul hlength
      obtain ⟨ls, hls, hmap⟩ := ih htail (fun name h => hnames name (List.mem_cons_of_mem _ h))
        n (by simpa using hfuel)
      have hsearch : ((first + 32 * (name :: rest).length : Nat) - 32 : Int) =
          (first + 32 * rest.length : Nat) := by
        rw [List.length_cons]
        omega
      have hstep : attributeType 0x0F = .LONG_NAME := by decide
      refine ⟨{ name := name, byteOffset := first + 32 * rest.length, order := order
                last := false }
        :: ls, ?_, by rw [List.map_cons, hmap]⟩
      rw [hsearch, findLongNameLoop, if_pos (by omega), Int.toNat_natCast, hattr, hstep]
      simp only [Option.bind_eq_bind, Option.bind_some, hparse, hsize.bytesPerDirEntry_eq]
      rw [show ((32 : Nat) : Int) = 32 from rfl, hls]
      rfl

/-! ## The chunks of a new entry -/

theorem markLast_names (ls : List LongNameEntry) :
    (markLast ls).map LongNameEntry.name = ls.map LongNameEntry.name := by
  induction ls with
  | nil => rfl
  | cons l rest ih =>
      cases rest with
      | nil => rfl
      | cons m rest => simpa [markLast] using ih

theorem markLast_length (ls : List LongNameEntry) : (markLast ls).length = ls.length := by
  simpa using congrArg List.length (markLast_names ls)

theorem markLast_inSlots {first : Nat} {ls : List LongNameEntry} (h : InSlots first ls) :
    InSlots first (markLast ls) := by
  induction ls with
  | nil => trivial
  | cons l rest ih =>
      cases rest with
      | nil => exact h
      | cons m rest => exact ⟨by rw [markLast_length]; exact h.1, ih h.2⟩

/-- The chunk `i` of a name. -/
theorem longNamePart_eq (name : Str) (i : Nat) :
    longNamePart name i = (name.drop (i * 13)).take 13 := by
  unfold longNamePart
  simp only
  split
  next hle =>
    rw [substrFrom_eq, List.take_of_length_le]
    rw [List.length_drop]
    omega
  next hlt =>
    rw [substr_eq (by omega) (by omega)]
    congr 1
    omega

/-- The chunks from `i` on make up the rest of the name. -/
theorem flatten_chunks (name : Str) (i count : Nat) (h : name.length ≤ (i + count) * 13) :
    ((List.range' i count).map (longNamePart name)).flatten = name.drop (i * 13) := by
  induction count generalizing i with
  | zero => simpa using (List.drop_eq_nil_of_le (by simpa using h)).symm
  | succ count ih =>
      rw [List.range'_succ, List.map_cons, List.flatten_cons, ih (i + 1) (by omega),
        longNamePart_eq,
        show (i + 1) * 13 = i * 13 + 13 by omega, ← List.drop_drop, List.take_append_drop]

/-- The entries of `new_dir_entry` are numbered from the last slot down. -/
theorem inSlots_range (fs : FAT32) (name : Str) (first i count total : Nat)
    (htotal : i + count = total) (hdir : fs.bytesPerDirEntry = 32) :
    InSlots first ((List.range' i count).map fun i =>
      { name := longNamePart name i, byteOffset := first + (total - i - 1) * fs.bytesPerDirEntry
        order := i + 1, last := false }) := by
  induction count generalizing i with
  | zero => trivial
  | succ count ih =>
      rw [List.range'_succ]
      refine ⟨?_, ih (i + 1) (by omega)⟩
      simp only [List.length_map, List.length_range', hdir]
      omega

theorem longNames_inSlots (hsize : fs.SlotSize) (name : Str) (first : Nat) :
    InSlots first (fs.longNames name first) := by
  unfold longNames
  rw [List.range_eq_range']
  exact inSlots_range fs name first 0 _ _ (by omega) hsize.bytesPerDirEntry_eq

theorem longNames_length (fs : FAT32) (name : Str) (first : Nat) :
    (fs.longNames name first).length = numLongNameEntries name := by
  simp [longNames]

theorem longNames_names (fs : FAT32) (name : Str) (first : Nat) :
    (fs.longNames name first).map LongNameEntry.name =
      (List.range' 0 (numLongNameEntries name)).map (longNamePart name) := by
  simp [longNames, List.range_eq_range', Function.comp_def]

theorem length_le_numLongNameEntries (name : Str) : name.length ≤ numLongNameEntries name * 13 := by
  unfold numLongNameEntries
  simp only
  split <;> omega

theorem numLongNameEntries_pos {name : Str} (h : name ≠ []) : 0 < numLongNameEntries name := by
  have hpos := List.length_pos_iff.2 h
  have hle := length_le_numLongNameEntries name
  omega

/-- The names that `find_long_name_entries` finds behind the chunks of a name. -/
theorem findLongNameEntries_spec (hsize : fs.SlotSize) {first : Nat} {name : Str} (shortName : Str)
    (hfirst : IsSlot first) (hne : name ≠ []) (hnul : 0 ∉ name)
    (ha : a = first + 32 * numLongNameEntries name) (hstart : a / fs.bytesPerCluster ≤ first)
    (hholds : HoldsNames fs.di.disk first ((fs.longNames name first).map LongNameEntry.name))
    (hbefore : 32 ≤ first → fs.parseAttribute (first - 32) ≠ some .LONG_NAME) :
    ∃ ls, fs.findLongNameEntries a shortName = some (name, ls) := by
  have hlength : ((fs.longNames name first).map LongNameEntry.name).length =
      numLongNameEntries name := by
    rw [List.length_map, longNames_length]
  have hchunks : ∀ chunk ∈ (fs.longNames name first).map LongNameEntry.name,
      0 ∉ chunk ∧ chunk.length ≤ 13 := by
    rw [longNames_names]
    intro chunk hmem
    obtain ⟨i, -, rfl⟩ := List.mem_map.1 hmem
    rw [longNamePart_eq]
    exact ⟨fun h => hnul (List.mem_of_mem_drop (List.mem_of_mem_take h)), List.length_take_le ..⟩
  obtain ⟨ls, hls, hmap⟩ := findLongNameLoop_spec hsize hfirst hstart hholds hchunks hbefore
    (a + 1) (by omega)
  have hflatten : (ls.map LongNameEntry.name).flatten = name := by
    have hle := length_le_numLongNameEntries name
    rw [hmap, longNames_names, flatten_chunks name 0 _ (by omega), Nat.zero_mul, List.drop_zero]
  have hnotEmpty : ls ≠ [] := by
    rintro rfl
    exact hne hflatten.symm
  refine ⟨markLast ls, ?_⟩
  rw [hlength, ← ha] at hls
  simp only [findLongNameEntries, hsize.bytesPerDirEntry_eq]
  rw [show ((32 : Nat) : Int) = 32 from rfl, hls]
  simp [hnotEmpty, hflatten]

/-! ## The short entry -/

/-- The slot at `a` holds the short entry of `e` with the first cluster `c`. -/
structure HoldsEntry (memory : Nat → UInt8) (a : Nat) (e : Entry) (c : Nat) : Prop where
  attr : memory (a + 11) = if e.type = .FILE then 0x20 else 0x10
  high : wordAt memory (a + 20) 2 = c / 2 ^ 16 % 2 ^ 16
  low : wordAt memory (a + 26) 2 = c % 2 ^ 16
  size : wordAt memory (a + 28) 4 = toUnsigned e.fileSizeBytes % 2 ^ 32

theorem HoldsEntry.congr {a' c : Nat} {e : Entry} (h : HoldsEntry memory a e c)
    (heq : ∀ j, j < 32 → memory' (a' + j) = memory (a + j)) : HoldsEntry memory' a' e c where
  attr := (heq 11 (by omega)).trans h.attr
  high := (wordAt_congr fun j hj => by
    simpa [Nat.add_assoc] using heq (20 + j) (by omega)).trans h.high
  low := (wordAt_congr fun j hj => by
    simpa [Nat.add_assoc] using heq (26 + j) (by omega)).trans h.low
  size := (wordAt_congr fun j hj => by
    simpa [Nat.add_assoc] using heq (28 + j) (by omega)).trans h.size

theorem shortNameLoop_length (longName : Str) (past : Nat → UInt8) (index count : Nat)
    (shortName : Str) :
    (shortNameLoop longName past index count shortName).length ≤ shortName.length + count := by
  induction count generalizing index shortName with
  | zero => simp [shortNameLoop]
  | succ count ih =>
      have hpush : ∀ c, (shortName.push c).length ≤ shortName.length + 1 := by
        intro c
        unfold Str.push
        split <;> simp
      refine (ih ..).trans ?_
      split_ifs <;> grind

/-- `long_to_short_name` returns a string of the wanted length. -/
theorem longToShortName_length (longName : Str) (past : Nat → UInt8) (len : Nat) :
    (longToShortName longName past len).length = len := by
  have hle := shortNameLoop_length longName past 0 len []
  simp only [List.length_nil] at hle
  simp only [longToShortName, List.length_append, List.length_replicate]
  omega

theorem writeChars_spec (offset : Nat) (s : Str) (hsize : offset + s.length ≤ b.size) :
    ∃ b', writeChars b offset s = some b' ∧ Buffer.ChangedIn offset (offset + s.length) b b' := by
  induction s generalizing b offset with
  | nil => exact ⟨b, rfl, .refl _ _ _⟩
  | cons c rest ih =>
      rw [List.length_cons] at hsize ⊢
      obtain ⟨b1, hset, hchanged, -⟩ := Buffer.set_spec (b := b) offset c (by omega)
      have hsize' : offset + 1 + rest.length ≤ b1.size := by
        rw [hchanged.size_eq]
        omega
      obtain ⟨b2, hrest, hchanged'⟩ := ih _ hsize'
      exact ⟨b2, by simp [writeChars, hset, hrest], (hchanged.mono (by omega) (by omega)).trans
        (hchanged'.mono (by omega) (by omega))⟩

/-- `write_dir_entry` stores the short entry and the chunks in front of it, and nothing else. -/
theorem writeDirEntry_spec (hsize : fs.SlotSize) {e : Entry} {c first : Nat} (extension : Str)
    {ls : List LongNameEntry} (past : Nat → Nat → Nat → UInt8)
    (hhead : e.fatAllocations.head? = some c) (hfirst : IsSlot first) (hslots : InSlots first ls)
    (ha : e.byteOffset = first + 32 * ls.length) :
    ∃ fs', fs.writeDirEntry e extension ls past = some fs' ∧
      fs.WritesIn first (e.byteOffset + 32) fs' ∧
      HoldsNames fs'.di.disk first (ls.map LongNameEntry.name) ∧
      HoldsEntry fs'.di.disk e.byteOffset e c := by
  have hslot : IsSlot e.byteOffset := ha ▸ isSlot_add.2 hfirst
  obtain ⟨fs1, hclear, hwrite, -⟩ := clearEntry_spec hsize hslot
  have hsize1 := hwrite.slotSize hsize
  obtain ⟨hread, -⟩ := read_slot hsize1.toValid e.byteOffset
  have hfits := hslot.fits hsize1.toValid
  generalize hoffset : e.byteOffset % fs1.bytesPerSector = offset at hfits
  generalize hbase : fs1.di.read (e.byteOffset / fs1.bytesPerSector) = base at hread
  -- the six stores into the buffer
  obtain ⟨b1, hset1, hc1⟩ := writeChars_spec (b := base) offset
    (longToShortName e.name (past 0 0) 8) (by rw [longToShortName_length]; omega)
  have hs1 := hc1.size_eq.trans hread
  obtain ⟨b2, hset2, hc2⟩ := writeChars_spec (b := b1) (8 + offset)
    (longToShortName extension (past 0 1) 3) (by rw [longToShortName_length]; omega)
  rw [longToShortName_length] at hc1 hc2
  have hs2 := hc2.size_eq.trans hs1
  obtain ⟨b3, hset3, hc3, hattr⟩ := Buffer.set_spec (b := b2) (offset + 11)
    (if e.type = .FILE then 0x20 else 0x10) (by omega)
  have hs3 := hc3.size_eq.trans hs2
  obtain ⟨b4, hset4, hc4, hhigh⟩ := Buffer.natToBytes_spec (b := b3) (c / 2 ^ 16)
    (20 + offset) 2 (by omega)
  have hs4 := hc4.size_eq.trans hs3
  obtain ⟨b5, hset5, hc5, hlow⟩ := Buffer.natToBytes_spec (b := b4) c (26 + offset) 2
    (by omega)
  have hs5 := hc5.size_eq.trans hs4
  obtain ⟨b6, hset6, hc6, hword⟩ := Buffer.natToBytes_spec (b := b5)
    (toUnsigned e.fileSizeBytes) (28 + offset) 4 (by omega)
  have hchanged : Buffer.ChangedIn offset (offset + 32) base b6 :=
    (((((hc1.mono (by omega) (by omega)).trans (hc2.mono (by omega) (by omega))).trans
      (hc3.mono (by omega) (by omega))).trans (hc4.mono (by omega) (by omega))).trans
      (hc5.mono (by omega) (by omega))).trans (hc6.mono (by omega) (by omega))
  have hholds : HoldsEntry b6.data offset e c :=
    { attr := by
        rw [hc6.data_eq _ (by omega), hc5.data_eq _ (by omega), hc4.data_eq _ (by omega), hattr]
      high := (wordAt_congr fun j hj => by
        rw [hc6.data_eq _ (by omega), hc5.data_eq _ (by omega), Nat.add_comm 20]).trans hhigh
      low := (wordAt_congr fun j hj => by
        rw [hc6.data_eq _ (by omega), Nat.add_comm 26]).trans hlow
      size := (wordAt_congr fun j hj => by rw [Nat.add_comm 28]).trans hword }
  subst hoffset hbase
  obtain ⟨hwrite', hdisk⟩ := write_slot hsize1.toValid hslot hchanged
  have hentry := hholds.congr hdisk
  -- the chunks lie in front of the short entry
  obtain ⟨fs2, hloop, hwrites, hnames⟩ :=
    writeLongNames_spec (hwrite'.slotSize hsize1) e.name past 1
    hfirst hslots
  rw [← ha] at hwrites
  refine ⟨fs2, ?_, (((hwrite.trans hwrite').mono (by omega) (by omega)).trans
    (hwrites.mono (by omega) (by omega))), hnames,
    hentry.congr fun j hj => hwrites.outside _ (by omega)⟩
  simp only [writeDirEntry, hclear, Option.bind_eq_bind, Option.bind_some, hset1, hset2, hset3,
    hhead]
  rw [Buffer.shortToBytes, hset4, Option.bind_some, Buffer.shortToBytes, hset5, Option.bind_some,
    Buffer.intToBytes, hset6, Option.bind_some]
  exact hloop

/-! ## Reading a file back -/

theorem parseChars_total (offset count : Nat) (name : Str) (h : offset + count ≤ b.size) :
    ∃ s, parseChars b offset count name = some s := by
  induction count generalizing offset name with
  | zero => exact ⟨name, rfl⟩
  | succ count ih =>
      have hget : b.get offset = some (b.data offset) := if_pos (by omega)
      obtain ⟨s, hs⟩ := ih (offset + 1) (if b.data offset ≠ 0x20 then name.push (b.data offset)
        else name) (by omega)
      exact ⟨s, by simpa only [parseChars, hget, Option.bind_eq_bind, Option.bind_some] using hs⟩

theorem toSigned_toUnsigned {n : Int} (hlow : -2 ^ 31 ≤ n) (hhigh : n < 2 ^ 31) :
    toSigned (toUnsigned n % 2 ^ 32) = n := by
  unfold toSigned toUnsigned
  split <;> omega

/-- Both halves of a cluster number make up the number. -/
theorem cluster_halves {c : Nat} (h : c < 2 ^ 32) :
    c / 2 ^ 16 % 2 ^ 16 * 2 ^ 16 ||| c % 2 ^ 16 = c := by
  rw [Nat.mul_comm, ← Nat.two_pow_add_eq_or_of_lt (Nat.mod_lt _ (by omega))]
  omega

/-- The first cluster of a chain is the first one that `find_cluster_allocations` appends. -/
theorem clusterAllocations_head {c : Nat} {chain : List Nat} (hvalid : fs.Valid)
    (hfew : fs.FewClusters) (hchain : fs.IsChainOf (c :: chain)) (fuel : Nat)
    (hfuel : chain.length + 1 < fuel) :
    ∃ pushed, fs.clusterAllocations fuel c = some pushed ∧ pushed.head? = some c := by
  have hdata := hchain.data c (by simp)
  have hne : c ≠ 0 := by
    have htwo := hdata.1
    omega
  have hread := read_clusterFat hvalid.hasSectors hdata.isClusterNumber
  by_cases hentered : fs.checkFatEntryType (fs.fatWord c) = .ALLOCATED
  · refine ⟨fs.collected (c :: chain), ?_, ?_⟩
    · simp [clusterAllocations, hne, hread, hentered,
        findClusterLoop_spec hvalid.hasSectors hfew hchain.isLinked hfuel]
    · cases chain with
      | nil => rfl
      | cons d rest =>
          rw [collected]
          split <;> rfl
  · obtain ⟨n, rfl⟩ : ∃ n, fuel = n + 1 := ⟨fuel - 1, by omega⟩
    exact ⟨[c], by simp [clusterAllocations, hne, hread, findClusterLoop, hentered], rfl⟩

/-- Writes behind the allocation table leave chains alone. -/
theorem WritesIn.isChainOf {low high : Nat} {chain : List Nat} (h : fs.WritesIn low high fs')
    (hlow : fs.fatEntryByteOffset fs.fatEntries ≤ low) (hvalid : fs.Valid)
    (hchain : fs.IsChainOf chain) : fs'.IsChainOf chain := by
  have hconfig := h.config
  have hword : ∀ c ∈ chain, fs'.fatWord c = fs.fatWord c := by
    intro c hc
    obtain ⟨-, -, hlt⟩ := hchain.data c hc
    have hoffset : fs'.fatEntryByteOffset c = fs.fatEntryByteOffset c := by
      rw [hconfig]
      rfl
    rw [fatWord, hoffset]
    refine wordAt_congr fun i hi => h.outside _ (.inl ?_)
    unfold fatEntryByteOffset at hlow ⊢
    rw [hvalid.bytesPerFatEntry_eq] at hlow ⊢
    omega
  exact
    { linked := hchain.linked.imp_of_mem_imp fun x y hx _ hxy => (hword x hx).trans hxy
      last := fun c hc => by
        rw [hword c (List.mem_of_mem_getLast? hc)]
        exact hchain.last c hc
      nodup := hchain.nodup
      data := fun c hc => by
        rw [hconfig]
        exact hchain.data c hc }

/-- The constructor of an entry reads a file back from its slots. -/
theorem newEntry_spec (hsize : fs.SlotSize) (hfew : fs.FewClusters) {e : Entry} {c first : Nat}
    {chain : List Nat} (htype : e.type = .FILE) (hne : e.name ≠ []) (hnul : 0 ∉ e.name)
    (hlow : -2 ^ 31 ≤ e.fileSizeBytes) (hhigh : e.fileSizeBytes < 2 ^ 31)
    (hchain : fs.IsChainOf (c :: chain)) (hfirst : IsSlot first)
    (ha : e.byteOffset = first + 32 * numLongNameEntries e.name)
    (hstart : e.byteOffset / fs.bytesPerCluster ≤ first)
    (hnames : HoldsNames fs.di.disk first ((fs.longNames e.name first).map LongNameEntry.name))
    (hholds : HoldsEntry fs.di.disk e.byteOffset e c)
    (hbefore : 32 ≤ first → fs.parseAttribute (first - 32) ≠ some .LONG_NAME) {fuel : Nat}
    (hfuel : chain.length + 2 < fuel) :
    ∃ entry, fs.newEntry fuel e.byteOffset = some (fs, .node entry []) ∧ entry.name = e.name ∧
      entry.type = e.type ∧ entry.fatAllocations.head? = some c ∧
      entry.fileSizeBytes = e.fileSizeBytes := by
  obtain ⟨n, rfl⟩ : ∃ n, fuel = n + 1 := ⟨fuel - 1, by omega⟩
  have hslot : IsSlot e.byteOffset := ha ▸ isSlot_add.2 hfirst
  have hvalid := hsize.toValid
  have hattr := parseAttribute_eq hvalid hslot
  rw [hholds.attr, if_pos htype, show attributeType 0x20 = .FILE by decide] at hattr
  obtain ⟨hread, -⟩ := read_slot hvalid e.byteOffset
  have hfits := hslot.fits hvalid
  -- the fields of the short entry
  obtain ⟨shortName, hshort⟩ :=
    parseChars_total (b := fs.di.read (e.byteOffset / fs.bytesPerSector))
    (e.byteOffset % fs.bytesPerSector) 8 [] (by omega)
  obtain ⟨extension, hext⟩ := parseChars_total (b := fs.di.read (e.byteOffset / fs.bytesPerSector))
    (8 + e.byteOffset % fs.bytesPerSector) 3 [] (by omega)
  have hwordHigh := bytesToShort_slot hvalid hslot (j := 20) (by omega)
  have hwordLow := bytesToShort_slot hvalid hslot (j := 26) (by omega)
  have hwordSize := bytesToInt_slot hvalid hslot (j := 28) (by omega)
  rw [hholds.high] at hwordHigh
  rw [hholds.low] at hwordLow
  rw [hholds.size] at hwordSize
  have hcluster : c < 2 ^ 32 := by
    have hlt := (hchain.data c (by simp)).2.1
    omega
  obtain ⟨pushed, hpushed, hhead⟩ := clusterAllocations_head hvalid hfew hchain n (by omega)
  obtain ⟨ls, hls⟩ :=
    findLongNameEntries_spec hsize shortName hfirst hne hnul ha hstart hnames hbefore
  refine ⟨{ name := e.name, extension := extension, type := .FILE
            fileSizeBytes := e.fileSizeBytes, byteOffset := e.byteOffset, order := -1
            longNameEntries := ls, fatAllocations := pushed }, ?_, rfl, htype.symm, hhead, rfl⟩
  have hparse : fs.parseDirEntry n .FILE e.byteOffset =
      some { name := e.name, extension := extension, type := .FILE
             fileSizeBytes := e.fileSizeBytes, byteOffset := e.byteOffset, order := -1
             longNameEntries := ls, fatAllocations := pushed } := by
    refine Option.bind_eq_some_iff.2 ⟨_, hshort, Option.bind_eq_some_iff.2 ⟨_, hext, ?_⟩⟩
    refine Option.bind_eq_some_iff.2 ⟨_, hwordHigh, Option.bind_eq_some_iff.2 ⟨_, hwordLow, ?_⟩⟩
    rw [cluster_halves hcluster]
    refine Option.bind_eq_some_iff.2 ⟨_, hpushed, Option.bind_eq_some_iff.2 ⟨_, hwordSize, ?_⟩⟩
    rw [toSigned_toUnsigned hlow hhigh]
    exact Option.bind_eq_some_iff.2 ⟨_, hls, rfl⟩
  simp only [newEntry, hattr, Option.bind_eq_bind, Option.bind_some, hparse, Option.pure_def]

/-- What `write_dir_entry` stores for a file, with the long name entries of `new_dir_entry`, is what
the constructor of an entry reads back: the slots lie in one cluster behind the allocation table,
and the slot in front of them holds no long name. -/
theorem newEntry_writeDirEntry (hsize : fs.SlotSize) (hfew : fs.FewClusters) {e : Entry}
    {c first cluster : Nat} {chain : List Nat} (htype : e.type = .FILE) (hne : e.name ≠ [])
    (hnul : 0 ∉ e.name) (hlow : -2 ^ 31 ≤ e.fileSizeBytes) (hhigh : e.fileSizeBytes < 2 ^ 31)
    (hhead : e.fatAllocations.head? = some c) (hchain : fs.IsChainOf (c :: chain))
    (hfirst : IsSlot first) (ha : e.byteOffset = first + 32 * numLongNameEntries e.name)
    (hbehind : fs.fatEntryByteOffset fs.fatEntries ≤ cluster * fs.bytesPerCluster)
    (hin : cluster * fs.bytesPerCluster ≤ first ∧
      e.byteOffset + 32 ≤ (cluster + 1) * fs.bytesPerCluster)
    (hbefore : 32 ≤ first → fs.parseAttribute (first - 32) ≠ some .LONG_NAME) (extension : Str)
    (past : Nat → Nat → Nat → UInt8) :
    ∃ fs', fs.writeDirEntry e extension (markLast (fs.longNames e.name first)) past = some fs' ∧
      ∀ fuel, chain.length + 2 < fuel → ∃ entry,
        fs'.newEntry fuel e.byteOffset = some (fs', .node entry []) ∧ entry.name = e.name ∧
        entry.type = e.type ∧ entry.fatAllocations.head? = some c ∧
        entry.fileSizeBytes = e.fileSizeBytes := by
  have hlength : (markLast (fs.longNames e.name first)).length = numLongNameEntries e.name := by
    rw [markLast_length, longNames_length]
  obtain ⟨fs', hwrite, hwrites, hnames, hholds⟩ := writeDirEntry_spec hsize extension past hhead
    hfirst (markLast_inSlots (longNames_inSlots hsize e.name first)) (by rw [hlength, ha])
  rw [markLast_names] at hnames
  have hconfig := hwrites.config
  have hpositive : 0 < fs.bytesPerCluster := by
    rcases Nat.eq_zero_or_pos fs.bytesPerCluster with hzero | hpos
    · rw [hzero] at hin
      omega
    · exact hpos
  -- the cluster number, which the code takes for the start of the cluster, is small enough
  have hstart : e.byteOffset / fs.bytesPerCluster ≤ first := by
    have hdiv : e.byteOffset / fs.bytesPerCluster < cluster + 1 :=
      Nat.div_lt_of_lt_mul (by rw [Nat.mul_comm]; omega)
    have hle : cluster ≤ cluster * fs.bytesPerCluster := Nat.le_mul_of_pos_right _ hpositive
    omega
  have hsize' := hwrites.slotSize hsize
  have hbefore' : 32 ≤ first → fs'.parseAttribute (first - 32) ≠ some .LONG_NAME := by
    intro hge
    have hslot : IsSlot (first - 32) := by
      unfold IsSlot at hfirst ⊢
      omega
    have hbyte := hwrites.outside (first - 32 + 11) (.inl (by omega))
    rw [parseAttribute_eq hsize'.toValid hslot, hbyte, ← parseAttribute_eq hsize.toValid hslot]
    exact hbefore hge
  refine ⟨fs', hwrite, fun fuel hfuel => ?_⟩
  refine newEntry_spec hsize' ?_ htype hne hnul hlow hhigh
    (hwrites.isChainOf (by omega) hsize.toValid hchain) hfirst ha ?_ ?_ hholds hbefore' hfuel
  · rw [hconfig]
    exact hfew
  · rw [hconfig]
    exact hstart
  · rw [hconfig] at hnames ⊢
    exact hnames

/-- A file named `a` with one cluster, for the first two slots of the cluster 9. -/
private def fileA : Entry where
  name := [0x61]
  type := .FILE
  fileSizeBytes := 5
  byteOffset := 9 * 512 + 32
  parentDir := none
  subDirs := []
  fatAllocations := [2]

theorem newEntry_writeDirEntry_a :
    ∃ fs', (smallVolume.setFatWord 2 endMarker).writeDirEntry fileA []
        (markLast ((smallVolume.setFatWord 2 endMarker).longNames fileA.name (9 * 512)))
        (fun _ _ _ => 0x41) = some fs' ∧
      ∀ fuel, 0 + 2 < fuel → ∃ entry,
        fs'.newEntry fuel fileA.byteOffset = some (fs', .node entry []) ∧
        entry.name = fileA.name ∧ entry.type = fileA.type ∧
        entry.fatAllocations.head? = some 2 ∧ entry.fileSizeBytes = fileA.fileSizeBytes := by
  have hsize : (smallVolume.setFatWord 2 endMarker).SlotSize :=
    ⟨smallVolume_valid.setFatWord 2 endMarker, rfl⟩
  have hword : (smallVolume.setFatWord 2 endMarker).fatWord 2 = endMarker := by
    rw [smallVolume_valid.fatWord_setFatWord (by decide), Function.update_self]
  have hmarker : IsEndMarker endMarker := by decide
  have hdata : (smallVolume.setFatWord 2 endMarker).IsDataCluster 2 := by decide
  have hchain : (smallVolume.setFatWord 2 endMarker).IsChainOf [2] :=
    ⟨.singleton 2, by simpa [hword] using hmarker, by simp, by simpa using hdata⟩
  have hslot : IsSlot (9 * 512 - 32) ∧ IsSlot (9 * 512) := by decide
  have hbefore : (smallVolume.setFatWord 2 endMarker).parseAttribute (9 * 512 - 32) ≠
      some .LONG_NAME := by
    have hattr : attributeType ((smallVolume.setFatWord 2 endMarker).di.disk (9 * 512 - 32 + 11)) ≠
        .LONG_NAME := by decide +kernel
    rw [parseAttribute_eq hsize.toValid hslot.1]
    exact fun h => hattr (Option.some.inj h)
  have hin : 9 * 512 ≤ 9 * 512 ∧ fileA.byteOffset + 32 ≤ (9 + 1) * 512 := by decide
  exact newEntry_writeDirEntry hsize (by decide) rfl (by decide) (by decide) (by decide) (by decide)
    rfl hchain hslot.2 rfl (by decide) hin (fun _ => hbefore) [] (fun _ _ _ => 0x41)

end FAT32

end CrosKernel.Fs
