/-
Module: RfPirate.Proofs.BootMemory
Layer: Proofs
Purpose: What a session with the bootloader leaves in the memories. From any state of a session in
  which no section is locked and the page buffer is empty, blocks that are written are read back,
  whatever sizes they are read in; a block that ends in half a word loses it; the chip erase misses
  a page.
Main exports: Sends, Reached, Ready, Sends.machine, upload_readBack, upload_image,
  eeprom_readBack, eraseChip_cells, cdcTask_unplugged
-/
import RfPirate.Proofs.BootTimeout

namespace RfPirate

open Lib Lib.Bytes Lib.Packets Lib.PagedFlash Lib.Machine

/-! ### Lock bits -/

namespace AvrMemory

variable {m m' : AvrMemory}

/-- Only the lock bits count. -/
theorem Unlocked.congr (h : m.Unlocked) (hsame : m'.lockBits = m.lockBits) : m'.Unlocked :=
  ⟨hsame ▸ h.application, hsame ▸ h.read, hsame ▸ h.boot⟩

theorem Unlocked.lpmLocked (h : m.Unlocked) : m.lpmLocked = false := decide_eq_false h.read

theorem Unlocked.spmLocked (h : m.Unlocked) (a : Nat) : m.spmLocked a = false := by
  refine decide_eq_false ?_
  split
  · exact h.application
  · exact h.boot

theorem Unlocked.bootPageErase (h : m.Unlocked) (a : Nat) :
    m.bootPageErase a =
      { m with
        flash := erasePage flashCells spmPagesize (a % flashSize) m.flash
        rwwBusy := m.busyAfter a } := by
  rw [AvrMemory.bootPageErase, h.spmLocked, if_neg Bool.false_ne_true]

theorem Unlocked.bootPageWrite (h : m.Unlocked) (a : Nat) :
    m.bootPageWrite a =
      { m with
        flash := writePage flashCells spmPagesize (a % flashSize) m.flash
        rwwBusy := m.busyAfter a } := by
  rw [AvrMemory.bootPageWrite, h.spmLocked, if_neg Bool.false_ne_true]

end AvrMemory

/-! ### Addresses -/

section Addresses

variable {t : Target} {m : AvrMemory} {a b : Nat}

/-- The step of the address does not show in what is addressed. -/
theorem advance_iterate_mod {M : Nat} (hM : M ∣ 2 ^ 32) (n : Nat) (t : Target) :
    (Target.advance^[n] t).currAddress % M = (t.currAddress + 2 * n) % M := by
  induction n generalizing t with
  | zero => rfl
  | succ n ih =>
      rw [Function.iterate_succ_apply, ih]
      show ((t.currAddress + 2) % 2 ^ 32 + 2 * n) % M = _
      rw [Nat.add_mod, Nat.mod_mod_of_dvd _ hM, ← Nat.add_mod]
      congr 1
      omega

theorem pgmReadByte_idle (hlock : m.Unlocked) (hidle : m.rwwBusy = false) (a : Nat) :
    m.pgmReadByte a = m.flash.cells (a % flashSize) := by
  rw [AvrMemory.pgmReadByte, hidle, hlock.lpmLocked]
  exact if_neg fun h => h.1.elim Bool.noConfusion Bool.noConfusion

theorem or_bit (heven : a % 2 = 0) (hbit : b < 2) : a ||| b = a + b := by
  have hor := Nat.two_pow_add_eq_or_of_lt (i := 1) hbit (a / 2)
  have ha : 2 ^ 1 * (a / 2) = a := by omega
  rw [ha] at hor
  exact hor.symm

/-- Words of the flash have addresses of 14 bits, and the command sets them. -/
theorem exec_setWord {w : Nat} (hw : 2 * w < flashSize) :
    BootCommand.exec t (.setWord w) = ({ t with currAddress := 2 * w }, [charReturn]) := by
  have hw' : w < 2 ^ 14 := by
    have := hw
    unfold flashSize at this
    omega
  have hhigh : shiftInt (UInt8.ofNat (w / 256)) 9 = 2 ^ 9 * (w / 256) := by
    simp only [shiftInt, UInt8.toNat_ofNat']
    rw [if_pos (by omega)]
    omega
  have hlow : shiftInt (UInt8.ofNat w) 1 = w % 256 * 2 := by
    simp only [shiftInt, UInt8.toNat_ofNat']
    rw [if_pos (by omega)]
    omega
  have hsum : 2 ^ 9 * (w / 256) ||| w % 256 * 2 = 2 * w := by
    rw [← Nat.two_pow_add_eq_or_of_lt (by omega)]
    omega
  show ({ t with currAddress := shiftInt _ 9 ||| shiftInt _ 1 }, [charReturn]) = _
  rw [hhigh, hlow, hsum]

end Addresses

/-! ### Reading flash -/

section Reading

variable {t t' : Target} {cs : List (BootCommand × Bool)} {answers : List (List UInt8)}

theorem run_programStep_cons {c : BootCommand}
    (h : run programStep (BootCommand.exec t c).1 cs = some (t', answers)) :
    run programStep t ((c, true) :: cs) = some (t', (BootCommand.exec t c).2 :: answers) := by
  simp [run, programStep, h]

/-- A range in two parts. The second starts where the first ends, up to the size of the memory. -/
theorem cellRange_add (size : Nat) (cells : Nat → UInt8) {a b m : Nat} (n : Nat)
    (h : b % size = (a + m) % size) :
    cellRange size cells a (m + n) =
      cellRange size cells a m ++ cellRange size cells b n := by
  simp only [cellRange, List.range_add, List.map_append, List.map_map]
  congr 1
  refine List.map_congr_left fun i _ => ?_
  rw [Function.comp_apply, ← Nat.add_assoc, Nat.add_mod, ← h, ← Nat.add_mod]

theorem flashByte_idle (hlock : t.mem.Unlocked) (hidle : t.mem.rwwBusy = false)
    (heven : t.currAddress % 2 = 0) (i : Nat) :
    BootCommand.flashByte t i = t.mem.flash.cells ((t.currAddress + i) % flashSize) := by
  have hparity := advance_iterate_mod (M := 2) ⟨2 ^ 31, rfl⟩ (i / 2) t
  have hplace := advance_iterate_mod (M := flashSize) ⟨2 ^ 17, rfl⟩ (i / 2) t
  rw [BootCommand.flashByte, or_bit (by omega) (Nat.mod_lt i (by decide)),
    pgmReadByte_idle hlock hidle, Nat.add_mod, hplace, ← Nat.add_mod]
  congr 2
  omega

/-- A block of flash that is read: the read-while-write section is on again by then. -/
theorem exec_readFlash (hlock : t.mem.Unlocked) (heven : t.currAddress % 2 = 0) (n : Nat) :
    (BootCommand.exec t (.readFlash n)).2 = cellRange flashSize t.mem.flash.cells t.currAddress n :=
  List.map_congr_left fun i _ =>
    flashByte_idle (t := { t with mem := t.mem.bootRwwEnable }) (hlock.congr rfl) rfl heven i

theorem exec_readFlash_mem (n : Nat) :
    (BootCommand.exec t (.readFlash n)).1.mem = t.mem.bootRwwEnable :=
  advance_iterate_mem (n / 2) { t with mem := t.mem.bootRwwEnable }

theorem exec_readFlash_address {M : Nat} (hM : M ∣ 2 ^ 32) {n : Nat} (hn : n % 2 = 0) :
    (BootCommand.exec t (.readFlash n)).1.currAddress % M = (t.currAddress + n) % M := by
  have hplace := advance_iterate_mod hM (n / 2) { t with mem := t.mem.bootRwwEnable }
  have hhalves : 2 * (n / 2) = n := by omega
  rwa [hhalves] at hplace

/-- Blocks that follow each other read as one, whatever their sizes. -/
theorem run_blocks (block : Nat → BootCommand) (bytes : Target → Nat → List UInt8)
    (inv : Target → Prop) (ok : Nat → Prop) (hnone : ∀ t, bytes t 0 = [])
    (hanswer : ∀ t n, inv t → ok n → (BootCommand.exec t (block n)).2 = bytes t n)
    (hinv : ∀ t n, inv t → ok n → inv (BootCommand.exec t (block n)).1)
    (hadd : ∀ t m n, inv t → ok m →
      bytes t (m + n) = bytes t m ++ bytes (BootCommand.exec t (block m)).1 n)
    (ht : inv t) {sizes : List Nat} (hsizes : ∀ n ∈ sizes, ok n) :
    ∃ t' answers, run programStep t (sizes.map fun n => (block n, true)) = some (t', answers) ∧
      answers.length = sizes.length ∧ answers.flatten = bytes t sizes.sum ∧ inv t' := by
  induction sizes generalizing t with
  | nil => exact ⟨t, [], rfl, rfl, (hnone t).symm, ht⟩
  | cons n sizes ih =>
      have hn : ok n := hsizes n List.mem_cons_self
      obtain ⟨t', answers, hrun, hlen, hbytes, hend⟩ :=
        ih (hinv t n ht hn) fun k hk => hsizes k (List.mem_cons_of_mem n hk)
      refine ⟨t', (BootCommand.exec t (block n)).2 :: answers, run_programStep_cons hrun,
        congrArg Nat.succ hlen, ?_, hend⟩
      rw [List.flatten_cons, hbytes, hanswer t n ht hn, List.sum_cons, hadd t n sizes.sum ht hn]

/-- Flash that is read in blocks of even sizes. -/
theorem run_readFlash (hlock : t.mem.Unlocked) (heven : t.currAddress % 2 = 0) {sizes : List Nat}
    (hsizes : ∀ n ∈ sizes, n % 2 = 0) :
    ∃ t' answers, run programStep t (sizes.map fun n => (.readFlash n, true)) = some (t', answers) ∧
      answers.length = sizes.length ∧
      answers.flatten = cellRange flashSize t.mem.flash.cells t.currAddress sizes.sum ∧
      t'.mem.flash.cells = t.mem.flash.cells := by
  obtain ⟨t', answers, hrun, hlen, hbytes, -, -, hcells⟩ := run_blocks .readFlash
    (fun t' n => cellRange flashSize t.mem.flash.cells t'.currAddress n)
    (fun t' => t'.mem.Unlocked ∧ t'.currAddress % 2 = 0 ∧
      t'.mem.flash.cells = t.mem.flash.cells)
    (fun n => n % 2 = 0) (fun _ => rfl)
    (fun t' n ht' _ => by rw [exec_readFlash ht'.1 ht'.2.1, ht'.2.2])
    (fun t' n ht' hn => by
      obtain ⟨hlock', heven', hcells'⟩ := ht'
      rw [exec_readFlash_mem, ← hcells', exec_readFlash_address ⟨2 ^ 31, rfl⟩ hn, Nat.add_mod,
        heven', hn]
      exact ⟨hlock'.congr rfl, rfl, rfl⟩)
    (fun t' m n _ hm => by
      exact cellRange_add flashSize _ n (exec_readFlash_address ⟨2 ^ 17, rfl⟩ hm))
    ⟨hlock, heven, rfl⟩ hsizes
  exact ⟨t', answers, hrun, hlen, hbytes, hcells⟩

end Reading

/-! ### Writing flash -/

section Writing

variable {t : Target} {a : Nat} {data : List UInt8}

/-- The words of a block that ends in its page are loaded into the buffer from an offset on. -/
theorem fillWords_mem (data : List UInt8) {o : Nat} (heven : t.currAddress % 2 = 0)
    (hlt : t.currAddress + data.length < 2 ^ 32)
    (ho : t.currAddress % spmPagesize = o % spmPagesize)
    (hfit : o + data.length ≤ spmPagesize) :
    (BootCommand.fillWords data t).mem = { t.mem with flash := load o data t.mem.flash } := by
  induction data, t using BootCommand.fillWords.induct generalizing o with
  | case1 low high data t ih =>
      simp only [List.length_cons] at hlt hfit
      have hoffset : t.currAddress % spmPagesize / 2 * 2 = o := by
        unfold spmPagesize at *
        omega
      have hnext : ({ t with mem := t.mem.bootPageFill t.currAddress (ofBytes low high) } :
          Target).advance.currAddress = t.currAddress + 2 := by
        show (t.currAddress + 2) % 2 ^ 32 = t.currAddress + 2
        exact Nat.mod_eq_of_lt (by omega)
      have hfill : t.mem.bootPageFill t.currAddress (ofBytes low high) =
          { t.mem with flash := fillWord o low high t.mem.flash } := by
        rw [AvrMemory.bootPageFill, hoffset, lowByte_ofBytes, highByte_ofBytes]
      rw [BootCommand.fillWords, ih (o := o + 2), load]
      · show ({ t.mem.bootPageFill t.currAddress (ofBytes low high) with flash := _ } :
          AvrMemory) = _
        rw [hfill]
        rfl
      · rw [hnext]
        omega
      · rw [hnext]
        omega
      · rw [hnext, Nat.add_mod, ho, ← Nat.add_mod]
      · omega
  | case2 data t hdata =>
      rw [BootCommand.fillWords.eq_2 _ _ hdata, load.eq_2 _ _ _ hdata]

/-- A block of flash that is written. -/
theorem exec_writeFlash {w : Nat} (hlock : t.mem.Unlocked) (hfits : BootCommand.Fits (w, data))
    (hat : t.currAddress = 2 * w) (hbuffer : ∀ j, t.mem.flash.buffer j = none) :
    (BootCommand.exec t (.writeFlash data)).1.mem.flash.cells =
        BootCommand.burn t.mem.flash.cells (w, data) ∧
      (BootCommand.exec t (.writeFlash data)).1.mem.Unlocked ∧
      (∀ j, (BootCommand.exec t (.writeFlash data)).1.mem.flash.buffer j = none) := by
  obtain ⟨hflash, hpage⟩ := hfits
  simp only at hflash hpage
  have hshort : 2 * w + data.length < 2 ^ 32 := by
    unfold flashSize at hflash
    unfold spmPagesize at hpage
    omega
  have hin : 2 * w % flashSize = 2 * w := Nat.mod_eq_of_lt hflash
  have hfilled := fillWords_mem data (o := 2 * w % spmPagesize)
    (t := { t with mem := t.mem.bootPageErase t.currAddress }) (by simp only [hat]; omega)
    (by simpa only [hat] using hshort) (by simp only [hat, Nat.mod_mod]) hpage
  have hmem : (BootCommand.exec t (.writeFlash data)).1.mem.flash =
        writePage flashCells spmPagesize (2 * w) (load (2 * w % spmPagesize) data
          (erasePage flashCells spmPagesize (2 * w) t.mem.flash)) ∧
      (BootCommand.exec t (.writeFlash data)).1.mem.lockBits = t.mem.lockBits := by
    have hlock' : (BootCommand.fillWords data
        { t with mem := t.mem.bootPageErase t.currAddress }).mem.Unlocked :=
      hlock.congr (by rw [hfilled, hlock.bootPageErase])
    show ((BootCommand.fillWords data _).mem.bootPageWrite t.currAddress).flash = _ ∧
      ((BootCommand.fillWords data _).mem.bootPageWrite t.currAddress).lockBits = _
    rw [hlock'.bootPageWrite, hfilled, hat, hlock.bootPageErase]
    simp only [hin, and_self]
  rw [hmem.1]
  exact ⟨funext fun i => program_cells hbuffer i, hlock.congr hmem.2, fun _ => rfl⟩

/-- Blocks that are written where they belong. -/
theorem run_upload (blocks : List (Nat × List UInt8)) (hfits : ∀ b ∈ blocks, BootCommand.Fits b)
    (hlock : t.mem.Unlocked) (hbuffer : ∀ j, t.mem.flash.buffer j = none) :
    ∃ t', run programStep t ((BootCommand.upload blocks).map fun c => (c, true)) =
        some (t', List.replicate (2 * blocks.length) [charReturn]) ∧ t'.mem.Unlocked ∧
      t'.mem.flash.cells = blocks.foldl BootCommand.burn t.mem.flash.cells := by
  induction blocks generalizing t with
  | nil => exact ⟨t, rfl, hlock, rfl⟩
  | cons b blocks ih =>
      obtain ⟨w, data⟩ := b
      have hfit := hfits (w, data) List.mem_cons_self
      obtain ⟨hcells, hlock', hbuffer'⟩ :=
        exec_writeFlash (t := { t with currAddress := 2 * w }) hlock hfit rfl hbuffer
      obtain ⟨t', hrun, hend, hrest⟩ :=
        ih (fun b hb => hfits b (List.mem_cons_of_mem _ hb)) hlock' hbuffer'
      refine ⟨t', ?_, hend, ?_⟩
      · have hset := exec_setWord (t := t) hfit.1
        have hanswer : 2 * ((w, data) :: blocks).length = 2 * blocks.length + 1 + 1 := by
          simp only [List.length_cons]
          omega
        rw [hanswer, List.replicate_succ, List.replicate_succ]
        have hwrite := run_programStep_cons hrun
        have hboth := run_programStep_cons (t := t) (c := .setWord w) (by rw [hset]; exact hwrite)
        rw [hset] at hboth
        exact hboth
      · rw [hrest, hcells]
        rfl

/-- Pages that are written in order from the start of flash. -/
theorem foldl_burn_pages (f : Nat → List UInt8) (n : Nat) (cells : Nat → UInt8) (i : Nat) :
    (((List.range n).map fun k => (spmPagesize / 2 * k, f k)).foldl BootCommand.burn cells) i =
      if i / spmPagesize < n then
        if i % spmPagesize < 2 * ((f (i / spmPagesize)).length / 2) then
          (f (i / spmPagesize)).getD (i % spmPagesize) 0xff
        else 0xff
      else cells i := by
  induction n with
  | zero => exact (if_neg (Nat.not_lt_zero _)).symm
  | succ n ih =>
      have hstart : 2 * (spmPagesize / 2 * n) = spmPagesize * n := by
        unfold spmPagesize
        omega
      have hpage : spmPagesize * n / spmPagesize = n := Nat.mul_div_cancel_left n (by decide)
      have hi := Nat.div_add_mod i spmPagesize
      rw [List.range_succ, List.map_append, List.foldl_append, List.map_singleton,
        List.foldl_cons, List.foldl_nil, BootCommand.burn, hstart, hpage, ih]
      by_cases hlast : i / spmPagesize = n
      · have hnow : i / spmPagesize < n + 1 := Nat.lt_succ_of_le (Nat.le_of_eq hlast)
        rw [hlast] at hi
        have hoffset : i - spmPagesize * n = i % spmPagesize := by omega
        have hword : spmPagesize * n ≤ i ∧ i < spmPagesize * n + 2 * ((f n).length / 2) ↔
            i % spmPagesize < 2 * ((f n).length / 2) := by omega
        rw [if_pos hlast, if_pos hnow, hlast, hoffset, if_congr hword rfl rfl]
      · have hearlier : i / spmPagesize < n + 1 ↔ i / spmPagesize < n := by omega
        rw [if_neg hlast, if_congr hearlier rfl rfl]

/-- The pages of an image hold its whole words and are blank behind them. -/
theorem foldl_burn_image (image : List UInt8) (cells : Nat → UInt8) (i : Nat) :
    (BootCommand.imageBlocks image).foldl BootCommand.burn cells i =
      if i / spmPagesize < (image.length + (spmPagesize - 1)) / spmPagesize then
        if i < 2 * (image.length / 2) then image.getD i 0xff else 0xff
      else cells i := by
  rw [BootCommand.imageBlocks, foldl_burn_pages]
  by_cases hpage : i / spmPagesize < (image.length + (spmPagesize - 1)) / spmPagesize
  · have hi := Nat.div_add_mod i spmPagesize
    have hlt := Nat.mod_lt i (y := spmPagesize) (by decide)
    rw [if_pos hpage, if_pos hpage, List.length_take, List.length_drop]
    have hword : i % spmPagesize <
        2 * (min spmPagesize (image.length - spmPagesize * (i / spmPagesize)) / 2) ↔
          i < 2 * (image.length / 2) := by
      unfold spmPagesize at *
      omega
    by_cases hloaded : i < 2 * (image.length / 2)
    · rw [if_pos (hword.mpr hloaded), if_pos hloaded, List.getD_eq_getElem?_getD,
        List.getElem?_take_of_lt hlt, List.getElem?_drop, hi, List.getD_eq_getElem?_getD]
    · rw [if_neg (mt hword.mp hloaded), if_neg hloaded]
  · rw [if_neg hpage, if_neg hpage]

theorem fits_imageBlocks {image : List UInt8} (hlen : image.length ≤ flashSize) :
    ∀ b ∈ BootCommand.imageBlocks image, BootCommand.Fits b := by
  intro b hb
  obtain ⟨k, hk, rfl⟩ := List.mem_map.mp hb
  have hk := List.mem_range.mp hk
  have hlength := List.length_take_le spmPagesize (image.drop (spmPagesize * k))
  constructor
  · show 2 * (spmPagesize / 2 * k) < flashSize
    unfold spmPagesize at hk
    unfold flashSize spmPagesize at *
    omega
  · have hstart : 2 * (spmPagesize / 2 * k) = spmPagesize * k := by
      unfold spmPagesize
      omega
    simp only [hstart, Nat.mul_mod_right, Nat.zero_add]
    exact hlength

end Writing

/-! ### EEPROM -/

section Eeprom

variable {t : Target} {data : List UInt8}

theorem eepromReadByte_advance (n : Nat) (t : Target) (m : AvrMemory) :
    m.eepromReadByte ((Target.advance^[n] t).currAddress / 2) =
      m.eeprom ((t.currAddress / 2 + n) % eepromSize) := by
  have hplace := advance_iterate_mod (M := 2 * eepromSize) ⟨2 ^ 21, rfl⟩ n t
  rw [AvrMemory.eepromReadByte]
  congr 1
  unfold eepromSize at *
  omega

theorem writeBytes_cons (b : UInt8) (data : List UInt8) (t : Target) :
    BootCommand.writeBytes (b :: data) t =
      BootCommand.writeBytes data
        { t with mem := t.mem.eepromWriteByte (t.currAddress / 2) b }.advance := rfl

/-- The cells of a block follow each other. -/
theorem eepromCell_advance (c j : Nat) :
    ((c + 2) % 2 ^ 32 / 2 + j) % eepromSize = (c / 2 + (j + 1)) % eepromSize := by
  unfold eepromSize
  omega

/-- Cells that a block does not reach keep what they had. -/
theorem writeBytes_outside {i : Nat}
    (hi : ∀ j < data.length, i ≠ (t.currAddress / 2 + j) % eepromSize) :
    (BootCommand.writeBytes data t).mem.eeprom i = t.mem.eeprom i := by
  induction data generalizing t with
  | nil => rfl
  | cons b data ih =>
      rw [writeBytes_cons, ih]
      · exact Function.update_of_ne (hi 0 (Nat.succ_pos _)) _ _
      · intro j hj
        show i ≠ ((t.currAddress + 2) % 2 ^ 32 / 2 + j) % eepromSize
        rw [eepromCell_advance]
        exact hi (j + 1) (Nat.succ_lt_succ hj)

/-- The bytes of a block go to the cells from the address on. -/
theorem writeBytes_inside (hlen : data.length ≤ eepromSize) {j : Nat} (hj : j < data.length) :
    (BootCommand.writeBytes data t).mem.eeprom ((t.currAddress / 2 + j) % eepromSize) =
      data[j] := by
  induction data generalizing t j with
  | nil => exact absurd hj (Nat.not_lt_zero j)
  | cons b data ih =>
      simp only [List.length_cons] at hlen hj
      rw [writeBytes_cons]
      cases j with
      | zero =>
          -- the later bytes do not come round to the first cell
          rw [writeBytes_outside]
          · exact Function.update_self _ _ _
          · intro j hj'
            show _ ≠ ((t.currAddress + 2) % 2 ^ 32 / 2 + j) % eepromSize
            rw [eepromCell_advance]
            unfold eepromSize at *
            omega
      | succ j =>
          rw [← eepromCell_advance]
          exact ih (Nat.le_of_succ_le hlen) (Nat.lt_of_succ_lt_succ hj)

theorem exec_readEeprom (t : Target) (n : Nat) :
    (BootCommand.exec t (.readEeprom n)).2 =
      cellRange eepromSize t.mem.eeprom (t.currAddress / 2) n :=
  List.map_congr_left fun i _ => by
    rw [BootCommand.eepromByte, eepromReadByte_advance]
    rfl

/-- A block that was written is there to be read. -/
theorem cellRange_writeBytes (hlen : data.length ≤ eepromSize) :
    cellRange eepromSize (BootCommand.writeBytes data t).mem.eeprom (t.currAddress / 2)
      data.length = data := by
  apply List.ext_getElem
  · simp [cellRange]
  · intro j _ hj
    simpa [cellRange] using writeBytes_inside hlen hj

/-- EEPROM that is read in blocks. -/
theorem run_readEeprom (t : Target) (sizes : List Nat) :
    ∃ t' answers, run programStep t (sizes.map fun n => (.readEeprom n, true)) =
        some (t', answers) ∧ answers.length = sizes.length ∧
      answers.flatten = cellRange eepromSize t.mem.eeprom (t.currAddress / 2) sizes.sum ∧
      t'.mem.eeprom = t.mem.eeprom := by
  have hmem : ∀ (t : Target) n, (BootCommand.exec t (.readEeprom n)).1.mem = t.mem.bootRwwEnable :=
    fun t n => advance_iterate_mem n { t with mem := t.mem.bootRwwEnable }
  exact run_blocks .readEeprom
    (fun t' n => cellRange eepromSize t.mem.eeprom (t'.currAddress / 2) n)
    (fun t' => t'.mem.eeprom = t.mem.eeprom) (fun _ => True) (fun _ => rfl)
    (fun t' n ht' _ => by rw [exec_readEeprom, ht'])
    (fun t' n ht' _ => by rw [hmem, ← ht']; rfl)
    (fun t' m n _ _ => by
      have hplace := advance_iterate_mod (M := 2 * eepromSize) ⟨2 ^ 21, rfl⟩ m
        { t' with mem := t'.mem.bootRwwEnable }
      refine cellRange_add eepromSize _ n ?_
      show (Target.advance^[m] { t' with mem := t'.mem.bootRwwEnable }).currAddress / 2 %
        eepromSize = _
      unfold eepromSize at *
      simp only at hplace
      omega)
    rfl fun _ _ => trivial

end Eeprom

/-! ### The chip erase -/

section Erase

variable {t : Target} {m : AvrMemory}

theorem exec_eraseChip (t : Target) :
    BootCommand.exec t .eraseChip = ({ t with mem := chipErase 0 t.mem }, [charReturn]) := rfl

theorem chipErase_flash (a : Nat) {m : AvrMemory} (hlock : m.Unlocked) :
    (chipErase a m).flash = eraseWalk flashCells spmPagesize bootStartAddr a m.flash := by
  induction a, m using chipErase.induct with
  | case1 a m hlt ih =>
      have hin : a % flashSize = a := by
        unfold bootStartAddr at hlt
        exact Nat.mod_eq_of_lt (by unfold flashSize; omega)
      have hwalk : eraseWalk flashCells spmPagesize bootStartAddr a m.flash =
          eraseWalk flashCells spmPagesize bootStartAddr (a + spmPagesize + 1)
            (writePage flashCells spmPagesize a (erasePage flashCells spmPagesize a m.flash)) := by
        rw [eraseWalk, if_pos hlt]
      have herased : (m.bootPageErase a).Unlocked := hlock.congr (by rw [hlock.bootPageErase])
      have hwritten : ((m.bootPageErase a).bootPageWrite a).Unlocked :=
        herased.congr (by rw [herased.bootPageWrite])
      rw [chipErase, if_pos hlt, ih hwritten, hwalk, herased.bootPageWrite, hlock.bootPageErase]
      simp only [hin]
  | case2 a m hge => rw [chipErase, if_neg hge, eraseWalk, if_neg hge]

/-- The walk misses one page of the application section, the one in which its row ends. -/
theorem chipErase_cells (hlock : m.Unlocked) (hbuffer : ∀ j, m.flash.buffer j = none) (i : Nat) :
    (chipErase 0 m).flash.cells i =
      if i < bootStartAddr ∧ i / spmPagesize ≠ spmPagesize then 0xff else m.flash.cells i := by
  obtain ⟨hmet, hmissed⟩ := eraseWalk_cells flashCells spmPagesize (spmPagesize * 224) 0 hbuffer i
  rw [walk_meets_iff (by decide)] at hmet hmissed
  have hpages : i < bootStartAddr ∧ i / spmPagesize ≠ spmPagesize ↔
      i / spmPagesize < 224 ∧ i / spmPagesize % (spmPagesize + 1) ≠ spmPagesize := by
    unfold bootStartAddr spmPagesize
    omega
  rw [chipErase_flash 0 hlock]
  by_cases hpage : i < bootStartAddr ∧ i / spmPagesize ≠ spmPagesize
  · rw [if_pos hpage]
    exact hmet (hpages.mp hpage)
  · rw [if_neg hpage]
    exact hmissed (mt hpages.mpr hpage)

end Erase

/-! ### Sessions -/

/-- In some rounds of the loop the host does these things, and then this is the state. -/
def Sends (m : BootMain) (cs : List (BootCommand × Bool)) (m' : BootMain) : Prop :=
  ∃ css rounds o, List.Forall₂ RoundCarries css rounds ∧ css.flatten = cs ∧
    run bootStep m rounds = some (m', o)

/-- The commands of a host that stays attached. -/
def attached (cs : List BootCommand) : List (BootCommand × Bool) := cs.map fun c => (c, true)

/-- The answers that the host got. -/
def BootMain.answers (m : BootMain) : List (List UInt8) :=
  reassemble bootEpsize [] m.boot.tx.sent

/-- A state of a session, whatever the host did so far. -/
def Reached (m : BootMain) : Prop := ∃ mem cs, Sends (BootMain.init mem) cs m

/-- A state of a session in which flash can be programmed: no section is locked, and the page buffer
    is empty. -/
structure Ready (m : BootMain) : Prop where
  reached : Reached m
  unlocked : m.boot.target.mem.Unlocked
  buffer : ∀ j, m.boot.target.mem.flash.buffer j = none

section Sessions

variable {t t' : Target} {mem : AvrMemory} {m m' : BootMain} {cs : List (BootCommand × Bool)}
  {css : List (List (BootCommand × Bool))} {rounds : List (List (List UInt8))}
  {answers : List (List UInt8)}

theorem InSession.answers_eq (h : InSession t answers m.boot) : m.answers = answers := by
  obtain ⟨pss, hsent, hmessages⟩ := h.sent
  rw [BootMain.answers, hsent, reassemble_messages hmessages]

/-- What the host does from a state of a session on, and the answers to it, are known from the
    memories there. -/
theorem Sends.machine (h : Sends m cs m') (hm : Reached m) :
    ∃ t t' answers, t.mem = m.boot.target.mem ∧ run programStep t cs = some (t', answers) ∧
      m'.boot.target.mem = t'.mem ∧ m'.answers = m.answers ++ answers := by
  obtain ⟨mem, _, _, _, _, hrounds₀, -, hrun₀⟩ := hm
  obtain ⟨t, answers₀, -, hsession⟩ := (inSession_init mem).run hrounds₀ hrun₀
  obtain ⟨css, rounds, o, hrounds, rfl, hrun⟩ := h
  obtain ⟨t', answers, hmachine, hend⟩ := hsession.run hrounds hrun
  refine ⟨t, t', answers, hsession.mem.symm, hmachine, hend.mem, ?_⟩
  rw [hend.answers_eq, hsession.answers_eq]

/-- The loop goes round, wherever it stands. -/
def Live (m : BootMain) : Prop :=
  ∃ n t answers, Phase n m ∧ InSession t answers m.boot ∧ m.boot.target.runBootloader = true

theorem live_init (mem : AvrMemory) : Live (BootMain.init mem) :=
  ⟨0, _, _, phase_init mem, inSession_init mem, rfl⟩

/-- A session can go on in any way that does not end the loop. -/
theorem Live.sends (h : Live m) (hrounds : List.Forall₂ RoundCarries css rounds)
    (hbusy : ∀ ps ∈ rounds, ps ≠ []) (hexit : ∀ c ∈ css.flatten, c.1 ≠ .exit) :
    ∃ m', Sends m css.flatten m' ∧ Live m' := by
  obtain ⟨n, t, answers, hphase, hsession, hloop⟩ := h
  obtain ⟨m', o, hrun, hgoes⟩ := busy_run hphase hsession hloop hrounds hbusy hexit
  obtain ⟨t', answers', -, hend⟩ := hsession.run hrounds hrun
  exact ⟨m', ⟨css, rounds, o, hrounds, rfl, hrun⟩, _, _, _, hphase.run hrun, hend, hgoes⟩

/-- Here each command in packets of one byte. -/
theorem Live.sends_attached (h : Live m) (cs : List BootCommand) (hvalid : ∀ c ∈ cs, c.Valid)
    (hexit : ∀ c ∈ cs, c ≠ .exit) : ∃ m', Sends m (attached cs) m' ∧ Live m' := by
  have hrounds : List.Forall₂ RoundCarries (cs.map fun c => [(c, true)])
      (cs.map fun c => c.bytes.map fun b => [b]) := by
    rw [List.forall₂_map_left_iff, List.forall₂_map_right_iff, List.forall₂_same]
    exact fun c hc => .whole c _ (hvalid c hc) (carries_map_singleton c.opcode c.args)
  have hflat : (cs.map fun c => [(c, true)]).flatten = attached cs := List.map_eq_flatMap.symm
  rw [← hflat]
  refine h.sends hrounds ?_ ?_
  · intro ps hps
    obtain ⟨c, -, rfl⟩ := List.mem_map.mp hps
    exact List.cons_ne_nil _ _
  · intro c hc
    rw [hflat] at hc
    obtain ⟨d, hd, rfl⟩ := List.mem_map.mp hc
    exact hexit d hd

theorem reached_init (mem : AvrMemory) : Reached (BootMain.init mem) :=
  ⟨mem, [], [], [], [], .nil, rfl, rfl⟩

theorem ready_init (hlock : mem.Unlocked) (hreset : ∀ j, mem.flash.buffer j = none) :
    Ready (BootMain.init mem) :=
  ⟨reached_init mem, hlock, hreset⟩

theorem unlocked_of_ones (h : mem.lockBits = 0xff) : mem.Unlocked := by
  constructor <;> rw [h] <;> decide

/-- Blocks that are uploaded are in flash, and are read back from any word on and in blocks of any
    even sizes. Other pages keep what they had. -/
theorem upload_readBack {blocks : List (Nat × List UInt8)} {w : Nat} {sizes : List Nat}
    (hready : Ready m) (hfits : ∀ b ∈ blocks, BootCommand.Fits b) (hw : 2 * w < flashSize)
    (hsizes : ∀ n ∈ sizes, n % 2 = 0)
    (h : Sends m (attached (BootCommand.upload blocks ++ .setWord w :: sizes.map .readFlash)) m') :
    let cells := blocks.foldl BootCommand.burn m.boot.target.mem.flash.cells
    m'.boot.target.mem.flash.cells = cells ∧
      ∃ read, m'.answers =
          m.answers ++ (List.replicate (2 * blocks.length + 1) [charReturn] ++ read) ∧
        read.length = sizes.length ∧
        read.flatten = cellRange flashSize cells (2 * w) sizes.sum := by
  intro cells
  obtain ⟨t, t', answers, ht, hmachine, hmem, hanswers⟩ := h.machine hready.reached
  obtain ⟨t₁, hupload, hlock, hcells⟩ := run_upload (t := t) blocks hfits (ht ▸ hready.unlocked)
    (ht ▸ hready.buffer)
  obtain ⟨t₂, read, hread, hlen, hbytes, hkept⟩ := run_readFlash
    (t := { t₁ with currAddress := 2 * w }) hlock (by show 2 * w % 2 = 0; omega) hsizes
  have hset := exec_setWord (t := t₁) hw
  have hrest := run_programStep_cons (t := t₁) (c := .setWord w) (by rw [hset]; exact hread)
  have hall := run_append hupload hrest
  have hmap : attached (BootCommand.upload blocks ++ BootCommand.setWord w ::
      sizes.map .readFlash) = (BootCommand.upload blocks).map (fun c => (c, true)) ++
        (BootCommand.setWord w, true) :: sizes.map fun n => (.readFlash n, true) := by
    rw [attached, List.map_append, List.map_cons, List.map_map]
    rfl
  rw [← hmap, hset, hmachine] at hall
  obtain ⟨rfl, rfl⟩ := Prod.mk.inj (Option.some.inj hall)
  refine ⟨by rw [hmem, hkept, hcells, ht], read, ?_, hlen, by rw [hbytes, hcells, ht]⟩
  rw [hanswers, List.replicate_succ', List.append_assoc]
  rfl

/-- A block that is cut off, and then half a page and a byte of the next one. -/
theorem upload_readBack_two : ∃ m m' : BootMain, ∃ read,
    m'.answers = m.answers ++ (List.replicate 5 [charReturn] ++ read) ∧ read.length = 2 ∧
      read.flatten = cellRange flashSize
        ([(0, [1, 2]), (64, [3])].foldl BootCommand.burn m.boot.target.mem.flash.cells) 0 6 := by
  have hcut : RoundCarries [(.writeFlash [7, 0], false)] [[chr 'B', 0, 2, chr 'F', 7]] :=
    .cut _ _ 0 (show 2 < 2 ^ 16 by decide) (List.cons_ne_nil _ _) rfl
  obtain ⟨m, hsends, hlive⟩ := (live_init .erased).sends (.cons hcut .nil) (by decide) (by simp)
  have hready : Ready m := by
    obtain ⟨css, rounds, o, hrounds, hcs, hrun⟩ := id hsends
    obtain ⟨t', answers, hmachine, hend⟩ := (inSession_init .erased).run hrounds hrun
    rw [hcs] at hmachine
    obtain ⟨rfl, -⟩ := Prod.mk.inj (Option.some.inj hmachine)
    obtain ⟨-, hlock, hbuffer⟩ := exec_writeFlash (t := ⟨.erased, 0, true⟩) (unlocked_of_ones rfl)
      (show BootCommand.Fits (0, [7, 0]) by decide) rfl fun _ => rfl
    exact ⟨⟨_, _, hsends⟩, hend.mem ▸ hlock, hend.mem ▸ hbuffer⟩
  obtain ⟨m', h, -⟩ := hlive.sends_attached
    (BootCommand.upload [(0, [1, 2]), (64, [3])] ++ .setWord 0 :: [4, 2].map .readFlash)
    (by simp [BootCommand.upload, BootCommand.setWord, BootCommand.Valid])
    (by simp [BootCommand.upload, BootCommand.setWord])
  exact ⟨m, m', (upload_readBack hready
    (by simp [BootCommand.Fits, flashSize, spmPagesize]) (by decide) (by decide) h).2⟩

/-- An image that is uploaded page by page is read back: its whole words, then blank bytes to the
    end of its last page. Flash behind that page keeps what it had. -/
theorem upload_image {image : List UInt8} {sizes : List Nat} (hready : Ready m)
    (hlen : image.length ≤ bootStartAddr) (hsizes : ∀ n ∈ sizes, n % 2 = 0)
    (hsum : sizes.sum ≤ (image.length + (spmPagesize - 1)) / spmPagesize * spmPagesize)
    (h : Sends m (attached (BootCommand.upload (BootCommand.imageBlocks image) ++
      .setWord 0 :: sizes.map .readFlash)) m') :
    (∃ before read, m'.answers = m.answers ++ (before ++ read) ∧ read.length = sizes.length ∧
      read.flatten = (image.take (2 * (image.length / 2)) ++
        List.replicate spmPagesize 0xff).take sizes.sum) ∧
    ∀ i, (image.length + (spmPagesize - 1)) / spmPagesize * spmPagesize ≤ i →
      m'.boot.target.mem.flash.cells i = m.boot.target.mem.flash.cells i := by
  have hflash : image.length ≤ flashSize := Nat.le_trans hlen (by decide)
  obtain ⟨hcells, read, hanswers, hcount, hbytes⟩ :=
    upload_readBack hready (fits_imageBlocks hflash) (by decide) hsizes h
  refine ⟨⟨_, read, hanswers, hcount, ?_⟩, fun i hi => ?_⟩
  · rw [hbytes]
    apply List.ext_getElem
    · simp only [cellRange, List.length_map, List.length_range, List.length_take,
        List.length_append, List.length_replicate]
      unfold spmPagesize at *
      omega
    · intro i hi _
      have hi : i < sizes.sum := by simpa [cellRange] using hi
      have hend : i < (image.length + (spmPagesize - 1)) / spmPagesize * spmPagesize :=
        Nat.lt_of_lt_of_le hi hsum
      have hpage := (Nat.div_lt_iff_lt_mul (by decide)).mpr hend
      have hcell : (2 * 0 + i) % flashSize = i := by
        unfold spmPagesize at hend
        unfold bootStartAddr at hlen
        unfold flashSize
        omega
      have hwords : (image.take (2 * (image.length / 2))).length = 2 * (image.length / 2) := by
        rw [List.length_take]
        omega
      simp only [cellRange, List.getElem_map, List.getElem_range]
      rw [hcell, foldl_burn_image, if_pos hpage, List.getElem_take, List.getElem_append]
      simp only [hwords]
      split
      · rename_i hloaded
        rw [List.getElem_take, List.getD_eq_getElem]
      · rw [List.getElem_replicate]
  · have hbehind : ¬ i / spmPagesize < (image.length + (spmPagesize - 1)) / spmPagesize := by
      rw [Nat.not_lt]
      exact (Nat.le_div_iff_mul_le (by decide)).mpr hi
    rw [hcells, foldl_burn_image, if_neg hbehind]

/-- An image of three bytes, of which two are whole words. -/
theorem upload_image_three : ∃ m m' : BootMain, ∃ before read,
    m'.answers = m.answers ++ (before ++ read) ∧ read.length = 1 ∧
      read.flatten = [1, 2, 0xff, 0xff] := by
  obtain ⟨m', h, -⟩ := (live_init .erased).sends_attached
    (BootCommand.upload (BootCommand.imageBlocks [1, 2, 3]) ++
      .setWord 0 :: [4].map .readFlash)
    (by simp [BootCommand.upload, BootCommand.imageBlocks, BootCommand.setWord, BootCommand.Valid,
      spmPagesize, List.range_succ])
    (by simp [BootCommand.upload, BootCommand.imageBlocks, BootCommand.setWord, spmPagesize,
      List.range_succ])
  exact ⟨_, m', (upload_image (ready_init (unlocked_of_ones rfl) fun _ => rfl) (by decide)
    (by decide) (by decide) h).1⟩

/-- EEPROM gives back what was written, from any cell on and in blocks of any sizes. -/
theorem eeprom_readBack {high low : UInt8} {data : List UInt8} {sizes : List Nat}
    (hreached : Reached m) (hlen : data.length ≤ eepromSize) (hsum : sizes.sum = data.length)
    (h : Sends m (attached (.setAddress high low :: .writeEeprom data :: .setAddress high low ::
      sizes.map .readEeprom)) m') :
    (∃ read, m'.answers = m.answers ++ (List.replicate 3 [charReturn] ++ read) ∧
      read.length = sizes.length ∧ read.flatten = data) ∧
    ∀ i, (∀ j < data.length, i ≠ ((shiftInt high 9 ||| shiftInt low 1) / 2 + j) % eepromSize) →
      m'.boot.target.mem.eeprom i = m.boot.target.mem.eeprom i := by
  obtain ⟨t, t', answers, ht, hmachine, hmem, hanswers⟩ := h.machine hreached
  let at₀ : Target := { t with currAddress := shiftInt high 9 ||| shiftInt low 1 }
  let written := BootCommand.writeBytes data at₀
  obtain ⟨t₂, read, hread, hcount, hbytes, hkept⟩ := run_readEeprom
    { written with currAddress := shiftInt high 9 ||| shiftInt low 1 } sizes
  have hall := run_programStep_cons (t := t) (c := .setAddress high low) <|
    run_programStep_cons (t := at₀) (c := .writeEeprom data) <|
    run_programStep_cons (t := written) (c := .setAddress high low) hread
  have hmap : attached (BootCommand.setAddress high low :: .writeEeprom data ::
      .setAddress high low :: sizes.map .readEeprom) =
        (.setAddress high low, true) :: (.writeEeprom data, true) :: (.setAddress high low, true) ::
          sizes.map fun n => (.readEeprom n, true) := by
    simp only [attached, List.map_cons, List.map_map]
    rfl
  rw [← hmap, hmachine] at hall
  obtain ⟨rfl, rfl⟩ := Prod.mk.inj (Option.some.inj hall)
  refine ⟨⟨read, hanswers, hcount, ?_⟩, ?_⟩
  · rw [hbytes, hsum]
    exact cellRange_writeBytes (t := at₀) hlen
  · intro i hi
    rw [hmem, hkept, ← ht]
    exact writeBytes_outside (t := at₀) hi

/-- Two bytes at the end of the memory: the second goes to its start. -/
theorem eeprom_readBack_end : ∃ m m' : BootMain, ∃ read,
    m'.answers = m.answers ++ (List.replicate 3 [charReturn] ++ read) ∧ read.length = 2 ∧
      read.flatten = [1, 2] := by
  obtain ⟨m', h, -⟩ := (live_init .erased).sends_attached
    (.setAddress 3 0xff :: .writeEeprom [1, 2] :: .setAddress 3 0xff ::
      [1, 1].map .readEeprom)
    (by simp [BootCommand.Valid]) (by simp)
  exact ⟨_, m', (eeprom_readBack (reached_init .erased) (by decide) rfl h).1⟩

/-- The chip erase clears the application section but for one page. -/
theorem eraseChip_cells (hready : Ready m) (h : Sends m (attached [.eraseChip]) m') (i : Nat) :
    m'.boot.target.mem.flash.cells i =
      if i < bootStartAddr ∧ i / spmPagesize ≠ spmPagesize then 0xff
      else m.boot.target.mem.flash.cells i := by
  obtain ⟨t, t', answers, ht, hmachine, hmem, -⟩ := h.machine hready.reached
  have hrun := run_programStep_cons (t := t) (c := .eraseChip) (run_nil _)
  have herased : t'.mem = chipErase 0 t.mem := by
    rw [← (Prod.mk.inj (Option.some.inj (hrun.symm.trans hmachine))).1, exec_eraseChip]
  rw [hmem, herased, ← ht]
  exact chipErase_cells (ht ▸ hready.unlocked) (ht ▸ hready.buffer) i

/-- A part that is full of zeros keeps one page of them. -/
theorem eraseChip_cells_zeros : ∃ m' : BootMain,
    m'.boot.target.mem.flash.cells 0 = 0xff ∧ m'.boot.target.mem.flash.cells 0x4000 = 0 := by
  let zeros : AvrMemory := { AvrMemory.erased with flash := ⟨fun _ => 0, fun _ => none⟩ }
  obtain ⟨m', h, -⟩ := (live_init zeros).sends_attached [.eraseChip]
    (by simp [BootCommand.Valid]) (by simp)
  have hcells := eraseChip_cells (ready_init (unlocked_of_ones rfl) fun _ => rfl) h
  exact ⟨m', (hcells 0).trans (if_pos (by decide)), (hcells 0x4000).trans (if_neg (by decide))⟩

/-- A host that is unplugged while it sends a block of flash: the page is written as if the rest of
    the block were zeros. -/
theorem cdcTask_unplugged {s : Boot} {w j : Nat} {data : List UInt8}
    (hlock : s.target.mem.Unlocked) (hfits : BootCommand.Fits (w, data))
    (hat : s.target.currAddress = 2 * w) (hbuffer : ∀ i, s.target.mem.flash.buffer i = none)
    (hj : j < data.length)
    (hout : s.out.flatten = chr 'B' :: BootCommand.blockArgs data.length (chr 'F') ++ data.take j) :
    (cdcTask s).target.mem.flash.cells =
        BootCommand.burn s.target.mem.flash.cells
          (w, data.take j ++ List.replicate (data.length - j) 0) ∧
      (cdcTask s).tx.sent = s.tx.sent := by
  have hlen : (data.take j ++ List.replicate (data.length - j) 0).length = data.length := by
    rw [List.length_append, List.length_take, List.length_replicate]
    omega
  have hpackets : s.out ≠ [] := by
    intro hnone
    rw [hnone] at hout
    cases hout
  have hvalid : data.length < 2 ^ 16 := by
    have hpage := hfits.2
    simp only at hpage
    unfold spmPagesize at hpage
    omega
  have hcut := cdcTask_cut (s := s) (k := data.length - j - 1)
    (.writeFlash (data.take j ++ List.replicate (data.length - j) 0)) (by rwa [← hlen] at hvalid)
    hpackets (by
      have hmissing : data.length - j - 1 + 1 = data.length - j := by omega
      rw [hout, hmissing]
      simp only [BootCommand.bytes, BootCommand.opcode, BootCommand.args, hlen, List.cons_append,
        List.append_assoc])
  have hpadded : BootCommand.Fits (w, data.take j ++ List.replicate (data.length - j) 0) := by
    refine ⟨hfits.1, ?_⟩
    simp only [hlen]
    exact hfits.2
  rw [hcut]
  exact ⟨(exec_writeFlash hlock hpadded hat hbuffer).1, rfl⟩

/-- Of two bytes the second is lost. -/
theorem cdcTask_unplugged_half :
    let s : Boot :=
      ⟨⟨.erased, 0, true⟩, 0, [[chr 'B', 0, 2], [chr 'F', 1]], ⟨[], []⟩⟩
    (cdcTask s).target.mem.flash.cells = BootCommand.burn s.target.mem.flash.cells (0, [1, 0]) ∧
      (cdcTask s).tx.sent = [] :=
  cdcTask_unplugged (j := 1) (unlocked_of_ones rfl) (show BootCommand.Fits (0, [1, 2]) by decide)
    rfl (fun _ => rfl) (by decide) rfl

end Sessions

end RfPirate
