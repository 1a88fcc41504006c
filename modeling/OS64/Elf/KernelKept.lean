import OS64.Elf.ExecImage
import OS64.Elf.KernelSpace

/-!
# A file that keeps out of the kernel

`elf64_load_file` goes where the file tells it: the pages of a segment are mapped, its
bytes cleared and copied and the places of the relocations written with no look at the
addresses. So it is the file that decides about the kernel half. `KeepsOut` says of a
file that it names no address there; for a load that succeeds this is what it takes
(`kernel_kept_iff`), and a file with a segment in the kernel half is loaded into the
kernel.
-/

namespace OS64.Elf

open OS64.Lib OS64.Mm

/-! ## Conditions on a file -/

/-- The `n` addresses from `a` on are outside the kernel half. -/
def outside (a : BitVec 64) (n : Nat) : Prop := ∀ k, k < n → ¬ kernelHalf (a + BitVec.ofNat 64 k)

/-- A load of the `n` bytes from `a` on maps no page of the kernel. -/
def loadable (s : PageState) (a : BitVec 64) (n : Nat) : Prop :=
  ∀ k, k < n → kernelHalf (a + BitVec.ofNat 64 k) → (s.frameAt (a + BitVec.ofNat 64 k)).isSome

/-- A segment outside the kernel half: the pages that are mapped for it, its bytes in memory, and
those that come from the file, should these be more. -/
structure Elf64Phdr.OffKernel (p : Elf64Phdr) : Prop where
  pages : ∀ v ∈ p.pages, offKernel v
  cleared : outside p.pVaddr p.pMemsz.toNat
  copied : outside p.pVaddr p.pFilesz.toNat

/-- The relocation at byte `o`, of the table `p`, is outside the kernel half. What it adds to is
read from its place first where the table is one of `SHT_REL`. -/
structure RelocOff (s : PageState) (hdr : BitVec 64) (img : ByteMem) (p : Elf64Shdr) (o : Nat) :
    Prop where
  addend : p.shType = shtRel → loadable s (relRef hdr img p o) 8
  stored : outside (relRef hdr img p o) (storeLen (relTypeAt img o))

/-- All relocations of a section are outside the kernel half. -/
def TableOff (s : PageState) (hdr : BitVec 64) (img : ByteMem) (p : Elf64Shdr) : Prop :=
  isRelTable p → ∀ j, j < relCount p → RelocOff s hdr img p (relStart p j)

/-- The file names no address in the kernel half. -/
structure KeepsOut (s : PageState) (hdr : BitVec 64) (img : ByteMem) : Prop where
  segments : fieldOf 16 16 img 0 = etExec → ∀ p ∈ segments img, p.OffKernel
  tables : ∀ i, i < shdrCount img → TableOff s hdr img (shdrAt img (shdrStart img i))

/-- A table of relocations inside the file, for a section of the file. None of its relocations has
the loader call code of the file. -/
structure TableInside (img : ByteMem) (len : Nat) (p : Elf64Shdr) : Prop where
  target : p.shInfo.toNat < shdrCount img
  entries : ∀ j, j < relCount p → relStart p j + relSize p.shType ≤ len
  plain : ∀ j, j < relCount p → relTypeAt img (relStart p j) ≠ .irelative

/-- The tables of the file and the data of its segments are inside the file. -/
structure Inside (img : ByteMem) (len : Nat) : Prop where
  header : 64 ≤ len
  phdrs : fieldOf 16 16 img 0 = etExec → PhdrsInside img len
  data : fieldOf 16 16 img 0 = etExec → ∀ p ∈ segments img, p.pOffset.toNat + p.pFilesz.toNat ≤ len
  shdrs : ShdrsInside img len
  tables : ∀ i, i < shdrCount img → isRelTable (shdrAt img (shdrStart img i)) →
    TableInside img len (shdrAt img (shdrStart img i))

/-- A segment in the lower half. -/
theorem Elf64Phdr.Fits.offKernel {p : Elf64Phdr} {len : Nat} (h : p.Fits len) : p.OffKernel where
  pages := h.pages_off
  cleared _ hk := low_not_kernel (h.addr_low hk)
  copied _ hk := low_not_kernel (h.addr_low (Nat.lt_of_lt_of_le hk h.sizes))

variable {env : ElfEnv} {s₀ s : PageState} {hdr : BitVec 64} {len : Nat} {img : ByteMem}

/-! ## Loops over bytes -/

theorem forall_addr_succ {P : BitVec 64 → Prop} {a : BitVec 64} {n : Nat} :
    (∀ k, k < n + 1 → P (a + BitVec.ofNat 64 k)) ↔
      P a ∧ ∀ k, k < n → P (a + 1 + BitVec.ofNat 64 k) := by
  have hzero : a + BitVec.ofNat 64 0 = a := BitVec.add_zero _
  constructor
  · intro h
    refine ⟨hzero ▸ h 0 (by omega), fun k hk => ?_⟩
    rw [ofNat_succ]
    exact h (k + 1) (by omega)
  · rintro ⟨h0, hrest⟩ k hk
    cases k with
    | zero =>
      rw [hzero]
      exact h0
    | succ k =>
      rw [← ofNat_succ]
      exact hrest k (by omega)

theorem outside_succ {a : BitVec 64} {n : Nat} :
    outside a (n + 1) ↔ ¬ kernelHalf a ∧ outside (a + 1) n :=
  @forall_addr_succ (fun v => ¬ kernelHalf v) a n

theorem loadable_succ {a : BitVec 64} {n : Nat} :
    loadable s a (n + 1) ↔ (kernelHalf a → (s.frameAt a).isSome) ∧ loadable s (a + 1) n :=
  @forall_addr_succ (fun v => kernelHalf v → (s.frameAt v).isSome) a n

/-- A byte stored and the rest after it. -/
theorem guarded_store_then (hstate : LoaderState env s₀ hdr len img) {a : BitVec 64} {b : BitVec 8}
    {n : Nat} {rest : ElfProg Unit}
    (hrest : Guarded env s₀ hdr len rest (outside (a + 1) n) fun _ => outside (a + 1) n) :
    Guarded env s₀ hdr len (do perform (.store a b); rest) (outside a (n + 1))
      fun _ => outside a (n + 1) := by
  refine ((guarded_store hstate a b).under fun h => (outside_succ.mp h).1).bind fun _ ha => ?_
  exact hrest.mono (fun h => (outside_succ.mp h).2) fun _ hr => outside_succ.mpr ⟨ha, hr⟩

theorem guarded_writeBytes (hstate : LoaderState env s₀ hdr len img) : ∀ (n : Nat) (a : BitVec 64)
    (v : Nat), Guarded env s₀ hdr len (writeBytes n a v) (outside a n) fun _ => outside a n
  | 0, _, _ => .pure fun _ hk => absurd hk (by omega)
  | n + 1, a, v => guarded_store_then hstate (guarded_writeBytes hstate n (a + 1) (v / 256))

theorem guarded_memset (hstate : LoaderState env s₀ hdr len img) : ∀ (n : Nat) (a : BitVec 64),
    Guarded env s₀ hdr len (memset n a) (outside a n) fun _ => outside a n
  | 0, _ => .pure fun _ hk => absurd hk (by omega)
  | n + 1, a => guarded_store_then hstate (guarded_memset hstate n (a + 1))

/-- The bytes copied come from the file. -/
theorem guarded_memcpy (hstate : LoaderState env s₀ hdr len img) : ∀ (n : Nat) (dst src : BitVec 64)
    (o : Nat), src = hdr + BitVec.ofNat 64 o → o + n ≤ len →
    Guarded env s₀ hdr len (memcpy n dst src) (outside dst n) fun _ => outside dst n
  | 0, _, _, _, _, _ => .pure fun _ hk => absurd hk (by omega)
  | n + 1, dst, src, o, hsrc, hin => by
    have hload : ∀ s, FileAt s hdr len img → ReadsTo env s (perform (.load src)) (img o) := by
      intro s hfile
      rw [hsrc]
      exact readsTo_load (hfile o (by omega))
    refine Guarded.reads hstate hload (guarded_store_then hstate ?_)
    refine guarded_memcpy hstate n (dst + 1) (src + 1) (o + 1) ?_ (by omega)
    rw [hsrc, BitVec.ofNat_add, BitVec.add_assoc]
    rfl

theorem guarded_readBytes (hstate : LoaderState env s₀ hdr len img) : ∀ (n : Nat) (a : BitVec 64),
    Guarded env s₀ hdr len (readBytes n a) (loadable s₀ a n) fun _ => loadable s₀ a n
  | 0, _ => .pure fun _ hk => absurd hk (by omega)
  | n + 1, a => by
    have hrest := guarded_readBytes hstate n (a + 1)
    refine ((guarded_load hstate a).under fun h => (loadable_succ.mp h).1).bind fun _ ha => ?_
    refine (hrest.under fun h => (loadable_succ.mp h).2).bind fun _ hr => ?_
    exact .pure (loadable_succ.mpr ⟨ha, hr⟩)

/-- The 8 bytes at `a` as a number. -/
theorem guarded_field (hstate : LoaderState env s₀ hdr len img) (a : BitVec 64) :
    Guarded env s₀ hdr len (field 64 0 a) (loadable s₀ a 8) fun _ => loadable s₀ a 8 := by
  have hzero : a + BitVec.ofNat 64 0 = a := BitVec.add_zero _
  unfold field
  rw [hzero]
  exact (guarded_readBytes hstate 8 a).bind fun _ h => .pure h

/-! ## Segments -/

theorem guarded_loadSegment (hstate : LoaderState env s₀ hdr len img) {o : Nat}
    (hin : o + phdrSize ≤ len)
    (hdata : (phdrAt img o).pOffset.toNat + (phdrAt img o).pFilesz.toNat ≤ len) :
    Guarded env s₀ hdr len (loadSegment hdr (hdr + BitVec.ofNat 64 o)) (phdrAt img o).OffKernel
      fun _ => (phdrAt img o).OffKernel := by
  have hread : ∀ s, FileAt s hdr len img →
      PhdrReads env s (hdr + BitVec.ofNat 64 o) (phdrAt img o) := fun s hfile => phdr_reads hfile hin
  generalize phdrAt img o = p at hread hdata ⊢
  have hsrc : hdr + p.pOffset = hdr + BitVec.ofNat 64 p.pOffset.toNat := by
    rw [BitVec.ofNat_toNat, BitVec.setWidth_eq]
  unfold loadSegment
  refine Guarded.reads hstate (fun s hf => (hread s hf).vaddr) ?_
  refine Guarded.reads hstate (fun s hf => (hread s hf).vaddr) ?_
  refine Guarded.reads hstate (fun s hf => (hread s hf).memsz) ?_
  refine ((guarded_alloc hstate _ _).under fun h => h.pages).bind fun _ hpages => ?_
  refine Guarded.reads hstate (fun s hf => (hread s hf).vaddr) ?_
  refine Guarded.reads hstate (fun s hf => (hread s hf).memsz) ?_
  refine ((guarded_memset hstate _ _).under fun h => h.cleared).bind fun _ hcleared => ?_
  refine Guarded.reads hstate (fun s hf => (hread s hf).offset) ?_
  refine Guarded.reads hstate (fun s hf => (hread s hf).filesz) ?_
  exact (guarded_memcpy hstate _ _ _ _ hsrc hdata).mono (fun h => h.copied) fun _ hcopied =>
    ⟨hpages, hcleared, hcopied⟩

/-- The loop over the program headers asks it of every loadable segment. -/
theorem guarded_segmentLoop (hstate : LoaderState env s₀ hdr len img) (hlen : 64 ≤ len)
    (hin : PhdrsInside img len) : ∀ (n i fuel : Nat), i + n = phdrCount img →
    n < fuel → (∀ p ∈ segmentsFrom img n i, p.pOffset.toNat + p.pFilesz.toNat ≤ len) →
    Guarded env s₀ hdr len (segmentLoop hdr (hdr + fieldOf 64 32 img 0) fuel i)
      (∀ p ∈ segmentsFrom img n i, p.OffKernel)
      fun r => r = 0 ∧ ∀ p ∈ segmentsFrom img n i, p.OffKernel
  | n, i, 0, _, hfuel, _ => absurd hfuel (by omega)
  | 0, i, fuel + 1, hi, _, _ => by
    have hend : ¬ i < (fieldOf 16 56 img 0).toNat := by
      show ¬ i < phdrCount img
      omega
    have hcount : ∀ s, FileAt s hdr len img → ReadsTo env s (ePhnum hdr) (fieldOf 16 56 img 0) :=
      fun s hf => ehdr_reads hf hlen (by decide)
    rw [segmentLoop]
    refine Guarded.reads hstate hcount ?_
    rw [if_neg hend]
    exact .pure ⟨rfl, fun p hp => absurd hp List.not_mem_nil⟩
  | n + 1, i, fuel + 1, hi, hfuel, hdata => by
    have hgo : i < (fieldOf 16 56 img 0).toNat := by
      show i < phdrCount img
      omega
    have hstart : phdrStart img i + phdrSize ≤ len := hin i hgo
    have haddr : entryAt (hdr + fieldOf 64 32 img 0) phdrSize i =
        hdr + BitVec.ofNat 64 (phdrStart img i) := entryAt_eq _ _ _ _
    have hcount : ∀ s, FileAt s hdr len img → ReadsTo env s (ePhnum hdr) (fieldOf 16 56 img 0) :=
      fun s hf => ehdr_reads hf hlen (by decide)
    have htype : ∀ s, FileAt s hdr len img →
        ReadsTo env s (pType (hdr + BitVec.ofNat 64 (phdrStart img i))) _ :=
      fun s hf => (phdr_reads hf hstart).type
    unfold segmentsFrom at hdata ⊢
    rw [segmentLoop]
    refine Guarded.reads hstate hcount ?_
    rw [if_pos hgo, haddr]
    refine Guarded.reads hstate htype ?_
    by_cases hpt : (phdrAt img (phdrStart img i)).pType = ptLoad
    · rw [if_pos hpt] at hdata
      rw [if_pos hpt, if_pos hpt]
      have hrest := guarded_segmentLoop hstate hlen hin n (i + 1) fuel (by omega) (by omega)
        fun p hp => hdata p (List.mem_cons_of_mem _ hp)
      have hsegment := guarded_loadSegment hstate hstart (hdata _ List.mem_cons_self)
      -- this segment, and what the rest of the loop asks of the others
      refine (hsegment.under fun h => (List.forall_mem_cons.mp h).1).bind fun _ hp => ?_
      exact hrest.mono (fun h => (List.forall_mem_cons.mp h).2) fun _ hr =>
        ⟨hr.1, List.forall_mem_cons.mpr ⟨hp, hr.2⟩⟩
    · rw [if_neg hpt] at hdata
      rw [if_neg hpt, if_neg hpt]
      exact guarded_segmentLoop hstate hlen hin n (i + 1) fuel (by omega) (by omega) hdata

/-! ## Relocations -/

/-- The `switch` stores what the type of the relocation says. -/
theorem guarded_relaApply (hstate : LoaderState env s₀ hdr len img) (hin : Inside img len)
    (ref symval addend : BitVec 64) {t : RelType} (ht : t ≠ .irelative) :
    Guarded env s₀ hdr len (relaApply hdr ref symval addend t) (outside ref (storeLen t))
      fun _ => outside ref (storeLen t) := by
  have hwrite : ∀ (n v : Nat), Guarded env s₀ hdr len
      (do writeBytes n ref v; pure (symval.setWidth 32)) (outside ref n) fun _ => outside ref n :=
    fun n v => (guarded_writeBytes hstate n ref v).bind fun _ h => .pure h
  cases t with
  | none => exact .pure fun _ hk => absurd hk (Nat.not_lt_zero _)
  | amd64 => exact hwrite 8 _
  | pc32 => exact hwrite 4 _
  | relative =>
    have hbase := fun s hfile =>
      @elf64GetBaseaddr_reads env s hdr len img hfile hin.header hin.phdrs
    exact Guarded.reads hstate hbase (hwrite 8 _)
  | irelative => exact absurd rfl ht
  | unsupported =>
    exact (guarded_puts _).bind fun _ _ => .pure fun _ hk => absurd hk (Nat.not_lt_zero _)

/-- A relocation that does not fail has been made outside the kernel half. -/
theorem guarded_elf64DoRela (hstate : LoaderState env s₀ hdr len img) (hin : Inside img len)
    {o e : Nat} (ho : o + shdrSize ≤ len) (he : e + relSize (shdrAt img o).shType ≤ len)
    (htarget : (shdrAt img o).shInfo.toNat < shdrCount img)
    (hplain : relTypeAt img e ≠ .irelative) :
    Guarded env s₀ hdr len
      (elf64DoRela hdr (hdr + BitVec.ofNat 64 e) (hdr + BitVec.ofNat 64 o))
      (RelocOff s₀ hdr img (shdrAt img o) e)
      fun r => r ≠ BitVec.ofInt 32 elfRelErr → RelocOff s₀ hdr img (shdrAt img o) e := by
  have hshdr : ∀ s, FileAt s hdr len img →
      ShdrReads env s (hdr + BitVec.ofNat 64 o) (shdrAt img o) := fun s hf => shdr_reads hf ho
  have hlen := hin.header
  have htypeEq : relRef hdr img (shdrAt img o) e = if fieldOf 16 16 img 0 = etRel then
    hdr + (shdrAt img (shdrStart img (shdrAt img o).shInfo.toNat)).shOffset + fieldOf 64 0 img e
    else fieldOf 64 0 img e := rfl
  have hsect : shdrStart img (shdrAt img o).shInfo.toNat + shdrSize ≤ len := hin.shdrs _ htarget
  have hsize : 16 ≤ relSize (shdrAt img o).shType := by
    unfold relSize
    split <;> decide
  -- From the value to add on, a table of either kind is worked off alike.
  have hrest : ∀ (ref addend : BitVec 64), Guarded env s₀ hdr len (do
      let info ← rInfo (hdr + BitVec.ofNat 64 e)
      if elf64RSym info ≠ shnUndef then do
        let link ← shLink (hdr + BitVec.ofNat 64 o)
        let symval ← elf64GetSymval hdr link ((elf64RSym info).setWidth 32)
        if symval = BitVec.ofInt 64 elfRelErr then pure (BitVec.ofInt 32 elfRelErr)
        else relaApply hdr ref symval addend (relType info)
      else relaApply hdr ref 0 addend (relType info)) (outside ref (storeLen (relTypeAt img e)))
      fun r => r ≠ BitVec.ofInt 32 elfRelErr → outside ref (storeLen (relTypeAt img e)) := by
    intro ref addend
    refine Guarded.reads hstate (a := fieldOf 64 8 img e) (fun s hf => field_reads hf rfl (by omega)) ?_
    have happly : ∀ symval, Guarded env s₀ hdr len
        (relaApply hdr ref symval addend (relTypeAt img e)) _ _ :=
      fun symval => guarded_relaApply hstate hin ref symval addend hplain
    by_cases hsym : elf64RSym (fieldOf 64 8 img e) ≠ shnUndef
    · rw [if_pos hsym]
      refine Guarded.reads hstate (fun s hf => (hshdr s hf).link) ?_
      refine guarded_undefined.bind fun symval _ => ?_
      by_cases herr : symval = BitVec.ofInt 64 elfRelErr
      · rw [if_pos herr]
        exact .pure fun hne => absurd rfl hne
      · rw [if_neg herr]
        exact (happly symval).mono id fun _ h _ => h
    · rw [if_neg hsym]
      exact (happly 0).mono id fun _ h _ => h
  unfold elf64DoRela
  refine Guarded.reads hstate (fun s hf => (hshdr s hf).info) ?_
  refine Guarded.reads hstate (fun s hf => elf64Section_reads hf hlen _) ?_
  rw [sectionAddr_inside hdr htarget]
  refine Guarded.reads hstate (fun s hf => (shdr_reads hf hsect).offset) ?_
  refine Guarded.reads hstate (a := fieldOf 16 16 img 0) (fun s hf => ehdr_reads hf hlen (by decide)) ?_
  refine Guarded.reads hstate (a := fieldOf 64 0 img e) (fun s hf => field_reads hf rfl (by omega)) ?_
  dsimp only
  rw [← htypeEq]
  refine Guarded.reads hstate (fun s hf => (hshdr s hf).type) ?_
  by_cases htab : (shdrAt img o).shType = shtRel
  · rw [if_pos htab]
    have hfield := guarded_field hstate (relRef hdr img (shdrAt img o) e)
    refine (hfield.under fun h => h.addend htab).bind fun addend hload => ?_
    exact (hrest _ addend).mono (fun h => h.stored) fun _ h hne => ⟨fun _ => hload, h hne⟩
  · rw [if_neg htab]
    have haddend : ∀ s, FileAt s hdr len img →
        ReadsTo env s (rAddend (hdr + BitVec.ofNat 64 e)) (fieldOf 64 16 img e) := by
      intro s hf
      rw [relSize, if_neg htab] at he
      exact field_reads hf rfl (by omega)
    refine Guarded.reads hstate haddend ?_
    exact (hrest _ _).mono (fun h => h.stored) fun _ h hne => ⟨fun hh => absurd hh htab, h hne⟩

/-- The file is too short for a table that the index of the loop could not count. -/
theorem relCount_lt (hstate : LoaderState env s₀ hdr len img) {p : Elf64Shdr}
    (htab : TableInside img len p) : relCount p < 2 ^ 32 := by
  by_contra hno
  have hlast := htab.entries (2 ^ 32 - 1) (by omega)
  have hshort := hstate.load.fits
  have habove := hstate.load.above
  have hsize : 16 ≤ relSize p.shType := by
    unfold relSize
    split <;> decide
  have hmul : 16 * (2 ^ 32 - 1) ≤ relSize p.shType * (2 ^ 32 - 1) := Nat.mul_le_mul_right _ hsize
  unfold aboveWindow at habove
  unfold relStart at hlast
  omega

/-- The relocations of a table from entry `idx` on. -/
theorem guarded_relLoop (hstate : LoaderState env s₀ hdr len img) (hin : Inside img len) {o : Nat}
    (ho : o + shdrSize ≤ len) (htab : TableInside img len (shdrAt img o)) :
    ∀ (n : Nat) (idx : BitVec 32) (fuel : Nat), idx.toNat + n = relCount (shdrAt img o) → n < fuel →
    Guarded env s₀ hdr len (relLoop hdr (hdr + BitVec.ofNat 64 o) fuel idx)
      (∀ j, idx.toNat ≤ j → j < relCount (shdrAt img o) →
        RelocOff s₀ hdr img (shdrAt img o) (relStart (shdrAt img o) j))
      fun r => r ≠ elfLoadErr → ∀ j, idx.toNat ≤ j → j < relCount (shdrAt img o) →
        RelocOff s₀ hdr img (shdrAt img o) (relStart (shdrAt img o) j) := by
  have hshdr : ∀ s, FileAt s hdr len img →
      ShdrReads env s (hdr + BitVec.ofNat 64 o) (shdrAt img o) := fun s hf => shdr_reads hf ho
  intro n
  induction n with
  | zero =>
    intro idx fuel hi hfuel
    obtain ⟨fuel, rfl⟩ : ∃ m, fuel = m + 1 := ⟨fuel - 1, by omega⟩
    rw [relLoop]
    refine Guarded.reads hstate (fun s hf => (hshdr s hf).size) ?_
    refine Guarded.reads hstate (fun s hf => (hshdr s hf).entsize) ?_
    by_cases hent : (shdrAt img o).shEntsize = 0
    · -- The division by zero.
      rw [if_pos hent]
      exact Prog.Needs.bind (R := fun _ => False) guarded_stop fun _ h => h.elim
    · have hend : ¬ idx.toNat < (shdrAt img o).shSize.toNat / (shdrAt img o).shEntsize.toNat := by
        show ¬ idx.toNat < relCount (shdrAt img o)
        omega
      rw [if_neg hent, if_neg hend]
      exact .pure fun _ j hj hlt => absurd hlt (by omega)
  | succ n ih =>
    intro idx fuel hi hfuel
    obtain ⟨fuel, rfl⟩ : ∃ m, fuel = m + 1 := ⟨fuel - 1, by omega⟩
    have hgo : idx.toNat < (shdrAt img o).shSize.toNat / (shdrAt img o).shEntsize.toNat := by
      show idx.toNat < relCount (shdrAt img o)
      omega
    have hent : (shdrAt img o).shEntsize ≠ 0 := by
      intro h0
      rw [h0] at hgo
      exact absurd hgo (by simp)
    have hlast := htab.entries idx.toNat hgo
    have hnext : (idx + 1).toNat = idx.toNat + 1 := by
      have hcount := relCount_lt hstate htab
      rw [BitVec.toNat_add, show (1 : BitVec 32).toNat = 1 from rfl]
      omega
    rw [relLoop]
    refine Guarded.reads hstate (fun s hf => (hshdr s hf).size) ?_
    refine Guarded.reads hstate (fun s hf => (hshdr s hf).entsize) ?_
    rw [if_neg hent, if_pos hgo]
    refine Guarded.reads hstate (fun s hf => elf64GetRela_reads hf ho) ?_
    have hentry := guarded_elf64DoRela hstate hin ho hlast htab.target (htab.plain idx.toNat hgo)
    have hrest := ih (idx + 1) fuel (by omega) (by omega)
    rw [hnext] at hrest
    refine (hentry.under fun h => h idx.toNat (le_refl _) hgo).bind fun result hresult => ?_
    by_cases herr : result = BitVec.ofInt 32 elfRelErr
    · rw [if_pos herr]
      exact (guarded_puts _).bind fun _ _ => .pure fun hne => absurd rfl hne
    · rw [if_neg herr]
      refine hrest.mono (fun h j hj hlt => h j (by omega) hlt) fun r hr hne j hj hlt => ?_
      -- the entry itself, or one of the rest
      by_cases hfirst : j = idx.toNat
      · rw [hfirst]
        exact hresult herr
      · exact hr hne j (by omega) hlt

/-- The loop over the sections asks it of every table. -/
theorem guarded_sectionLoop (hstate : LoaderState env s₀ hdr len img) (hin : Inside img len) :
    ∀ (n i fuel : Nat), i + n = shdrCount img → n < fuel →
    Guarded env s₀ hdr len (sectionLoop hdr (hdr + fieldOf 64 40 img 0) fuel i)
      (∀ k, i ≤ k → k < shdrCount img → TableOff s₀ hdr img (shdrAt img (shdrStart img k)))
      fun r => r ≠ elfLoadErr →
        ∀ k, i ≤ k → k < shdrCount img → TableOff s₀ hdr img (shdrAt img (shdrStart img k))
  | n, i, 0, _, hfuel => absurd hfuel (by omega)
  | 0, i, fuel + 1, hi, _ => by
    have hend : ¬ i < (fieldOf 16 60 img 0).toNat := by
      show ¬ i < shdrCount img
      omega
    have hcount : ∀ s, FileAt s hdr len img → ReadsTo env s (eShnum hdr) (fieldOf 16 60 img 0) :=
      fun s hf => ehdr_reads hf hin.header (by decide)
    rw [sectionLoop]
    refine Guarded.reads hstate hcount ?_
    rw [if_neg hend]
    exact .pure fun _ k hk hlt => absurd hlt (by omega)
  | n + 1, i, fuel + 1, hi, hfuel => by
    have hgo : i < (fieldOf 16 60 img 0).toNat := by
      show i < shdrCount img
      omega
    have hstart : shdrStart img i + shdrSize ≤ len := hin.shdrs i hgo
    have haddr : entryAt (hdr + fieldOf 64 40 img 0) shdrSize i =
        hdr + BitVec.ofNat 64 (shdrStart img i) := entryAt_eq _ _ _ _
    have hcount : ∀ s, FileAt s hdr len img → ReadsTo env s (eShnum hdr) (fieldOf 16 60 img 0) :=
      fun s hf => ehdr_reads hf hin.header (by decide)
    have htype : ∀ s, FileAt s hdr len img →
        ReadsTo env s (shType (hdr + BitVec.ofNat 64 (shdrStart img i))) _ :=
      fun s hf => (shdr_reads hf hstart).type
    have hrest := guarded_sectionLoop hstate hin n (i + 1) fuel (by omega) (by omega)
    -- What holds of this section and of the later ones holds from here on.
    have hjoin : ∀ {P : Nat → Prop}, P i → (∀ k, i + 1 ≤ k → k < shdrCount img → P k) →
        ∀ k, i ≤ k → k < shdrCount img → P k := by
      intro P h0 hlater k hk hlt
      by_cases hfirst : k = i
      · rw [hfirst]
        exact h0
      · exact hlater k (by omega) hlt
    rw [sectionLoop]
    refine Guarded.reads hstate hcount ?_
    rw [if_pos hgo, haddr]
    refine Guarded.reads hstate htype ?_
    by_cases htab : isRelTable (shdrAt img (shdrStart img i))
    · rw [if_pos (show _ ∨ _ from htab)]
      have hinside := hin.tables i hgo htab
      have hloop := guarded_relLoop hstate hin hstart hinside _ 0 (2 ^ 32) (Nat.zero_add _)
        (relCount_lt hstate hinside)
      refine (hloop.under fun h j _ hj => h i (le_refl _) hgo htab j hj).bind fun result hresult => ?_
      by_cases herr : result = elfLoadErr
      · rw [if_pos herr]
        exact .pure fun hne => absurd rfl hne
      · rw [if_neg herr]
        refine hrest.mono (fun h k hk hlt => h k (by omega) hlt) fun r hr hne => hjoin ?_ (hr hne)
        exact fun _ j hj => hresult herr j (Nat.zero_le _) hj
    · rw [if_neg (show ¬ (_ ∨ _) from htab)]
      refine (guarded_puts _).bind fun _ _ => ?_
      refine hrest.mono (fun h k hk hlt => h k (by omega) hlt) fun r hr hne => hjoin ?_ (hr hne)
      exact fun hh => absurd hh htab

/-! ## The whole load -/

theorem guarded_elf64LoadStage2 (hstate : LoaderState env s₀ hdr len img) (hin : Inside img len) :
    Guarded env s₀ hdr len (elf64LoadStage2 hdr)
      (∀ k, k < shdrCount img → TableOff s₀ hdr img (shdrAt img (shdrStart img k)))
      fun r => r ≠ elfLoadErr →
        ∀ k, k < shdrCount img → TableOff s₀ hdr img (shdrAt img (shdrStart img k)) := by
  unfold elf64LoadStage2
  refine Guarded.reads hstate (fun s hf => elf64Sheader_reads hf hin.header) ?_
  have hloop := guarded_sectionLoop hstate hin (shdrCount img) 0 (2 ^ 16) (Nat.zero_add _)
    (shdrCount_lt img)
  exact hloop.mono (fun h k _ hlt => h k hlt) fun r h hne k hlt => h hne k (Nat.zero_le _) hlt

/-- A load that fails has returned `NULL`. -/
theorem guarded_fail (msg : String) {T P : Prop} :
    Guarded env s₀ hdr len (fail msg) T fun r => r ≠ 0 → P := by
  unfold fail
  exact (guarded_puts msg).bind fun _ _ => .pure fun hne => absurd rfl hne

/-- The entry point is returned once the relocations are made. -/
theorem guarded_relocated (hstate : LoaderState env s₀ hdr len img) (hin : Inside img len)
    (msg : String) {P : Prop} (hP : P) : Guarded env s₀ hdr len (do
      let result ← elf64LoadStage2 hdr
      if result = elfLoadErr then fail msg else eEntry hdr)
      (∀ k, k < shdrCount img → TableOff s₀ hdr img (shdrAt img (shdrStart img k)))
      fun r => r ≠ 0 →
        P ∧ ∀ k, k < shdrCount img → TableOff s₀ hdr img (shdrAt img (shdrStart img k)) := by
  have hentry : ∀ s, FileAt s hdr len img → ReadsTo env s (eEntry hdr) (entryPoint img) :=
    fun s hf => ehdr_reads hf hin.header (by decide)
  refine (guarded_elf64LoadStage2 hstate hin).bind fun result hresult => ?_
  by_cases herr : result = elfLoadErr
  · rw [if_pos herr]
    exact guarded_fail msg
  · rw [if_neg herr]
    exact guarded_reads hstate fun s hf => ⟨_, hentry s hf, fun _ => ⟨hP, hresult herr⟩⟩

theorem guarded_elf64LoadFile (hstate : LoaderState env s₀ hdr len img) (hin : Inside img len) :
    Guarded env s₀ hdr len (elf64LoadFile hdr) (KeepsOut s₀ hdr img)
      fun r => r ≠ 0 → KeepsOut s₀ hdr img := by
  have htype : ∀ s, FileAt s hdr len img → ReadsTo env s (eType hdr) (fieldOf 16 16 img 0) :=
    fun s hf => ehdr_reads hf hin.header (by decide)
  have hsupported : Guarded env s₀ hdr len (elf64IsSupported hdr) (KeepsOut s₀ hdr img)
      fun _ => True := by
    refine guarded_reads hstate fun s hf => ?_
    obtain ⟨b, hb⟩ := @elf64IsSupported_reads env s hdr len img hf hin.header
    exact ⟨b, hb, trivial⟩
  unfold elf64LoadFile
  refine hsupported.bind fun supported _ => ?_
  by_cases hs : supported = false
  · rw [if_pos hs]
    exact guarded_fail _
  rw [if_neg hs]
  refine Guarded.reads hstate htype ?_
  by_cases hexec : fieldOf 16 16 img 0 = etExec
  · rw [if_pos hexec]
    have hloop := guarded_segmentLoop hstate hin.header (hin.phdrs hexec) (phdrCount img) 0 (2 ^ 16)
      (Nat.zero_add _) (phdrCount_lt img) (hin.data hexec)
    have hstage3 : Guarded env s₀ hdr len (elf64LoadStage3 hdr) (∀ p ∈ segments img, p.OffKernel)
        fun r => r = 0 ∧ ∀ p ∈ segments img, p.OffKernel := by
      unfold elf64LoadStage3
      exact Guarded.reads hstate (fun s hf => elf64Pheader_reads hf hin.header) hloop
    unfold elf64LoadExec
    refine (hstage3.under fun h => h.segments hexec).bind fun result hresult => ?_
    obtain ⟨hzero, hsegs⟩ := hresult
    rw [hzero, if_neg (by decide)]
    exact (guarded_relocated hstate hin _ hsegs).mono (fun h => h.tables) fun r h hne =>
      ⟨fun _ => (h hne).1, (h hne).2⟩
  · rw [if_neg hexec]
    by_cases hrel : fieldOf 16 16 img 0 = etRel
    · rw [if_pos hrel]
      -- a relocatable file: the memory of its sections is asked for by a call that is not there
      have hstage1 : Guarded env s₀ hdr len (elf64LoadStage1 hdr) (KeepsOut s₀ hdr img)
          fun _ => True := guarded_undefined.bind fun _ _ => .pure trivial
      unfold elf64LoadRel
      refine hstage1.bind fun result _ => ?_
      by_cases herr : result = elfLoadErr
      · rw [if_pos herr]
        exact guarded_fail _
      · rw [if_neg herr]
        exact (guarded_relocated hstate hin _ trivial).mono (fun h => h.tables) fun r h hne =>
          ⟨fun hh => absurd hh hexec, (h hne).2⟩
    · rw [if_neg hrel]
      exact .pure fun hne => absurd rfl hne

/-- What holds after each operation holds at the end: the kernel half translates as before. -/
theorem keepsKernel_translate {α : Type} {p : ElfProg α} {a : α} {s' : PageState}
    (hkept : p.Along (elfExec env) (keepsKernel env) s)
    (hrun : p.exec (elfExec env) s = some (a, s')) {v : BitVec 64} (hv : kernelHalf v) :
    s'.translate s'.root v = s.translate s.root v :=
  hkept.kept (F := fun s => s.translate s.root v) (fun _ _ r hq hr => hq.translation r hr v hv) hrun

/-- A file that names no address in the kernel half leaves it alone, and of those that are loaded
no other does. -/
theorem kernel_kept_iff (hstate : LoaderState env s hdr len img) (hin : Inside img len)
    (hmeets : (elf64LoadFile hdr).Along (elfExec env) allocMeets s) :
    (KeepsOut s hdr img → (elf64LoadFile hdr).Along (elfExec env) (keepsKernel env) s) ∧
    ∀ r s', (elf64LoadFile hdr).exec (elfExec env) s = some (r, s') → r ≠ 0 →
      (elf64LoadFile hdr).Along (elfExec env) (keepsKernel env) s → KeepsOut s hdr img := by
  obtain ⟨hon, hback⟩ := guarded_elf64LoadFile hstate hin s hstate.inv hmeets
  exact ⟨hon, fun r s' hrun hne hkept => (hback r s' hkept hrun).2 hne⟩

/-! ## Two files -/

/-- The machine of the example maps the page of the file and nothing else. -/
theorem fileState_mapsTo {page : Page} {v : BitVec 64} {f : Frame}
    (h : (fileState page).mapsTo v f) : kernelHalf v ∧ f = 0x20 := by
  obtain ⟨e, he, rfl⟩ := h
  rw [fileState_root] at he
  obtain ⟨t, hwalk, hmem, hpresent⟩ := lookup_eq_some.mp he
  have hlen : (tablePath v).length = 3 := rfl
  rcases tableChain_walk (fileState_chain page) (by rw [hlen]) hwalk with ⟨hp, -⟩ | ⟨hp, -⟩ | ⟨hp, -⟩ |
    ⟨hp, rfl⟩
  · cases hp
  · rw [hp] at hlen
    cases hlen
  · rw [hp] at hlen
    cases hlen
  · refine ⟨(List.cons.inj hp).1, ?_⟩
    have htable : tableOf 0x20 (calcPage 0x20000#64) (linearIndex 0 v) = e := hmem
    rw [← htable, tableOf_next] at hpresent
    by_cases hlast : linearIndex 0 v = 0x20
    · rw [← htable, hlast]
      decide
    · rw [if_neg hlast] at hpresent
      cases hpresent

theorem fileState_loader (page : Page) {len : Nat} (hlen : len ≤ 0x1000) :
    LoaderState plainEnv (fileState page) fileAddr len (pageBytes page) where
  load := fileState_loadable page hlen
  heap := show 0xFFFFFFFFC0001000 ≤ (0xFFFFFFFFC0160000#64).toNat by decide
  slot := show (fileState page).mem (fileState page).kptFrame 0 = 0 by
    rw [fileState_kptFrame]
    rfl
  user := ⟨[], (fileState_loadable page hlen).pages, fun _ _ hv hf => absurd (fileState_mapsTo hf).1 hv⟩
  taken v f _ hf := by
    rw [(fileState_mapsTo hf).2]
    exact bootPhys_taken (by decide)

/-- Such a file has no relocations. -/
theorem twoSegments_inside {v w : BitVec 64}
    (hsegs : segments (pageBytes (twoSegments v w)) = [⟨1, 176, v, 1, 1⟩, ⟨1, 177, w, 1, 1⟩])
    (hphdrs : phdrStart (pageBytes (twoSegments v w)) (phdrCount (pageBytes (twoSegments v w))) = 176)
    (hcount : shdrCount (pageBytes (twoSegments v w)) = 0) :
    Inside (pageBytes (twoSegments v w)) 184 where
  header := by decide
  phdrs _ := phdrStart_le (by omega)
  data _ p hp := by
    rw [hsegs] at hp
    simp only [List.mem_cons, List.not_mem_nil, or_false] at hp
    rcases hp with rfl | rfl
    · exact show (176 : BitVec 64).toNat + (1 : BitVec 64).toNat ≤ 184 by decide
    · exact show (177 : BitVec 64).toNat + (1 : BitVec 64).toNat ≤ 184 by decide
  shdrs i hi := by
    rw [hcount] at hi
    exact absurd hi (Nat.not_lt_zero i)
  tables i hi := by
    rw [hcount] at hi
    exact absurd hi (by omega)

/-- Both segments in the lower half: the kernel is left alone. -/
theorem kernel_kept_two_pages :
    (elf64LoadFile fileAddr).Along (elfExec plainEnv) (keepsKernel plainEnv)
      (fileState (twoSegments 0x400000#64 0x401000#64)) := by
  have hsegs : segments (pageBytes (twoSegments 0x400000#64 0x401000#64)) =
      [⟨1, 176, 0x400000#64, 1, 1⟩, ⟨1, 177, 0x401000#64, 1, 1⟩] := by decide +kernel
  have hcount : shdrCount (pageBytes (twoSegments 0x400000#64 0x401000#64)) = 0 := by decide +kernel
  have hfile : ExecFile (pageBytes (twoSegments 0x400000#64 0x401000#64)) 184 :=
    twoSegments_file hsegs (by decide +kernel) (by decide +kernel) hcount
      (by decide) (by decide) (by decide)
  refine (@kernel_kept_iff plainEnv _ fileAddr 184 _
    (fileState_loader (twoSegments 0x400000#64 0x401000#64) (by decide))
    (twoSegments_inside hsegs (by decide +kernel) hcount) (by decide +kernel)).1 ?_
  refine ⟨fun _ p hp => (hfile.fits p hp).offKernel, fun i hi => ?_⟩
  rw [hcount] at hi
  exact absurd hi (by omega)

/-- A segment in the kernel half: the file is accepted and loaded, and a page of the kernel
mapped for it. -/
theorem kernel_page_mapped :
    ∃ (env : ElfEnv) (s : PageState) (hdr : BitVec 64) (len : Nat) (img : ByteMem),
      LoaderState env s hdr len img ∧ Inside img len ∧
      (∃ s', (elf64IsSupported hdr).exec (elfExec env) s = some (true, s')) ∧
      (elf64LoadFile hdr).Along (elfExec env) allocMeets s ∧
      (∃ r s' v, (elf64LoadFile hdr).exec (elfExec env) s = some (r, s') ∧ r ≠ 0 ∧ kernelHalf v ∧
        s'.translate s'.root v ≠ s.translate s.root v) ∧
      ¬ (elf64LoadFile hdr).Along (elfExec env) (keepsKernel env) s := by
  have hsegs : segments (pageBytes (twoSegments 0x400000#64 0xFFFFFFFFC0030000#64)) =
      [⟨1, 176, 0x400000#64, 1, 1⟩, ⟨1, 177, 0xFFFFFFFFC0030000#64, 1, 1⟩] := by decide +kernel
  obtain ⟨hrun, hmeets⟩ : ((elf64LoadFile fileAddr).exec (elfExec plainEnv)
      (fileState (twoSegments 0x400000#64 0xFFFFFFFFC0030000#64))).map
        (fun r => (r.1, (r.2.translate r.2.root 0xFFFFFFFFC0030000#64).isSome)) =
      some (0x400000#64, true) ∧ (elf64LoadFile fileAddr).Along (elfExec plainEnv) allocMeets
        (fileState (twoSegments 0x400000#64 0xFFFFFFFFC0030000#64)) := by decide +kernel
  obtain ⟨⟨r, s'⟩, hexec, hr⟩ := Option.map_eq_some_iff.mp hrun
  obtain ⟨hentry, hmapped⟩ := Prod.mk.inj hr
  have hbefore : (fileState (twoSegments 0x400000#64 0xFFFFFFFFC0030000#64)).translate
      (fileState (twoSegments 0x400000#64 0xFFFFFFFFC0030000#64)).root 0xFFFFFFFFC0030000#64 = none := by
    decide +kernel
  have hkernel : kernelHalf 0xFFFFFFFFC0030000#64 := by decide
  have hne : s'.translate s'.root 0xFFFFFFFFC0030000#64 ≠
      (fileState (twoSegments 0x400000#64 0xFFFFFFFFC0030000#64)).translate
        (fileState (twoSegments 0x400000#64 0xFFFFFFFFC0030000#64)).root 0xFFFFFFFFC0030000#64 := by
    rw [hbefore]
    intro hnone
    rw [hnone] at hmapped
    cases hmapped
  refine ⟨plainEnv, _, fileAddr, 184, _, fileState_loader _ (by decide),
    twoSegments_inside hsegs (by decide +kernel) (by decide +kernel),
    exec_of_result (by decide +kernel), hmeets,
    ⟨r, s', _, hexec, ?_, hkernel, hne⟩, fun hkept => hne (keepsKernel_translate hkept hexec hkernel)⟩
  rw [show r = 0x400000#64 from hentry]
  decide

end OS64.Elf
