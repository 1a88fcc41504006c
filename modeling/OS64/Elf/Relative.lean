import OS64.Elf.ExecImage
import OS64.Lib.Narrow

/-!
# Relative relocations

A relocation of type `R_AMD64_RELATIVE` stores the base of the file plus its addend. The base is
what `elf64_get_baseaddr` returns, the page of the first loadable segment, and comes back through an
`int`. `relative_base_iff` says for which bases the sum is the one that the file asks for.

What the relocation stores to is some address of the file: all that is asked of it is that it is
mapped, and to a frame that holds no table, since a store to a table could move the bytes stored.
-/

namespace OS64.Elf

open OS64.Lib OS64.Mm

variable {env : ElfEnv} {s : PageState}

/-! ## Stores -/

/-- The `n` bytes from `a` on are in memory, and in no table. -/
def Storable (s : PageState) (a : BitVec 64) (n : Nat) : Prop :=
  ∀ k, k < n → ∃ f, s.frameAt (a + BitVec.ofNat 64 k) = some f ∧ s.noTable (frameOf s.cr3) f

/-- Addresses less than a page apart have different offsets. -/
theorem pageOffset_ne {a : BitVec 64} {j k : Nat} (hj : j < 0x1000) (hk : k < 0x1000) (hne : j ≠ k) :
    pageOffset (a + BitVec.ofNat 64 j) ≠ pageOffset (a + BitVec.ofNat 64 k) := by
  intro h
  have hoff := congrArg BitVec.toNat h
  rw [pageOffset_toNat, pageOffset_toNat, BitVec.toNat_add, BitVec.toNat_add, BitVec.toNat_ofNat,
    BitVec.toNat_ofNat] at hoff
  omega

/-- A byte stored leaves one at another offset as it is. -/
theorem byteAt_storeAt_other {f : Frame} {v w : BitVec 64} {b : BitVec 8}
    (h : s.noTable (frameOf s.cr3) f) (hne : pageOffset w ≠ pageOffset v) :
    (s.storeAt f v b).byteAt w = s.byteAt w := by
  unfold PageState.byteAt
  rw [frameAt_storeAt h]
  cases hw : s.frameAt w with
  | none => rfl
  | some g =>
    show some (pageByte ((s.storeAt f v b).mem g) (pageOffset w)) = some (pageByte (s.mem g) (pageOffset w))
    by_cases hg : g = f
    · rw [hg, storeAt_mem_same, pageByte_setPageByte, if_neg hne]
    · rw [storeAt_mem_other hg]

theorem byteAt_storeAt_same {f : Frame} {v : BitVec 64} {b : BitVec 8}
    (h : s.noTable (frameOf s.cr3) f) (hv : s.frameAt v = some f) :
    (s.storeAt f v b).byteAt v = some b := by
  rw [byteAt_of_frame ((frameAt_storeAt h v).trans hv), storeAt_mem_same, pageByte_setPageByte,
    if_pos rfl]

/-- From `s` to `s'` the `n` bytes from `a` on became those of `v`, and every byte whose offset in
its page none of them has is as it was. -/
structure Stored (s s' : PageState) (a : BitVec 64) (n v : Nat) : Prop where
  stored : ∀ k, k < n → s'.byteAt (a + BitVec.ofNat 64 k) = some (BitVec.ofNat 8 (v / 256 ^ k))
  kept : ∀ w, (∀ k, k < n → pageOffset w ≠ pageOffset (a + BitVec.ofNat 64 k)) → s'.byteAt w = s.byteAt w

theorem writeBytes_stored : ∀ (n : Nat) {s : PageState} {a : BitVec 64} (v : Nat), n ≤ 0x1000 →
    Storable s a n → ∃ s', (writeBytes n a v).exec (elfExec env) s = some ((), s') ∧ Stored s s' a n v
  | 0, s, a, v, _, _ => ⟨s, rfl, fun _ hk => absurd hk (Nat.not_lt_zero _), fun _ _ => rfl⟩
  | n + 1, s, a, v, hn, h => by
    have hzero : a + BitVec.ofNat 64 0 = a := BitVec.add_zero _
    obtain ⟨f, hf, htable⟩ := h 0 (Nat.succ_pos n)
    rw [hzero] at hf
    have hstore : (perform (.store a (BitVec.ofNat 8 v))).exec (elfExec env) s =
        some ((), s.storeAt f a (BitVec.ofNat 8 v)) := by
      refine (Prog.exec_perform _ _).trans ?_
      show (s.storeByte env.kernelHeap a (BitVec.ofNat 8 v)).map _ = _
      rw [storeByte_mapped hf]
      rfl
    have hrest : Storable (s.storeAt f a (BitVec.ofNat 8 v)) (a + 1) n := by
      intro k hk
      obtain ⟨g, hg, hgt⟩ := h (k + 1) (Nat.succ_lt_succ hk)
      refine ⟨g, ?_, fun q hq hw => hgt q hq ((walk_storeAt htable (by omega)).symm.trans hw)⟩
      rw [frameAt_storeAt htable, ofNat_succ]
      exact hg
    obtain ⟨s', hrun, hs'⟩ := writeBytes_stored n (v / 256) (Nat.le_of_succ_le hn) hrest
    refine ⟨s', (Prog.exec_bind_some hstore _).trans hrun, fun k hk => ?_, fun w hw => ?_⟩
    · cases k with
      | zero =>
        -- the first byte is at an offset that none of the others has
        rw [hzero, hs'.kept a fun j hj => ?_, byteAt_storeAt_same htable hf, pow_zero, Nat.div_one]
        rw [ofNat_succ]
        have hne := @pageOffset_ne a 0 (j + 1) (by omega) (by omega) (Nat.succ_ne_zero j).symm
        rwa [hzero] at hne
      | succ k =>
        rw [← ofNat_succ, hs'.stored k (Nat.lt_of_succ_lt_succ hk), Nat.div_div_eq_div_mul, pow_succ,
          Nat.mul_comm 256]
    · rw [hs'.kept w fun k hk => ?_, byteAt_storeAt_other htable]
      · have h0 := hw 0 (Nat.succ_pos n)
        rwa [hzero] at h0
      · rw [ofNat_succ]
        exact hw (k + 1) (Nat.succ_lt_succ hk)

/-- A number of 64 bits that was stored is read back. -/
theorem Stored.field {s s' : PageState} {a x : BitVec 64} (h : Stored s s' a 8 x.toNat) :
    ReadsTo env s' (field 64 0 a) x := by
  have hread := @readBytes_reads env s' (ByteMem.write (fun _ => 0) 0 8 x.toNat) 8
    (a + BitVec.ofNat 64 0) 0 fun k hk => by
      rw [show a + BitVec.ofNat 64 0 = a from BitVec.add_zero _, h.stored k hk, Nat.zero_add]
      show _ = some (ByteMem.write (fun _ => 0) 0 8 x.toNat k)
      rw [ByteMem.write, if_pos ⟨Nat.zero_le _, by omega⟩, Nat.sub_zero]
  rw [ByteMem.read_write_same] at hread
  have hx : BitVec.ofNat 64 (x.toNat % 256 ^ 8) = x := by
    rw [Nat.mod_eq_of_lt (show x.toNat < 256 ^ 8 from x.isLt), BitVec.ofNat_toNat, BitVec.setWidth_eq]
  show ReadsTo env s' (do
    let n ← readBytes 8 (a + BitVec.ofNat 64 0)
    Pure.pure (BitVec.ofNat 64 n)) x
  refine hread.bind ?_
  rw [hx]
  exact .pure x

/-! ## The relocation -/

/-- A relocation of type `R_AMD64_RELATIVE` without a symbol, at byte `e` of an executable file, in
a table of type `SHT_RELA` with its header at byte `o`. -/
structure RelativeEntry (img : ByteMem) (len o e : Nat) : Prop where
  header : 64 ≤ len
  exec : fieldOf 16 16 img 0 = etExec
  phdrs : PhdrsInside img len
  sect : o + shdrSize ≤ len
  rela : (shdrAt img o).shType = shtRela
  entry : e + relSize shtRela ≤ len
  relative : relTypeAt img e = .relative
  symbol : elf64RSym (fieldOf 64 8 img e) = shnUndef

/-- The program ends with 0 and has stored `x` at `a`. -/
def StoresQuad (env : ElfEnv) (s : PageState) (p : ElfProg (BitVec 32)) (a x : BitVec 64) : Prop :=
  ∃ s', p.exec (elfExec env) s = some (0, s') ∧ ReadsTo env s' (field 64 0 a) x

/-- A field whose bytes are mapped is read, whatever is in it. -/
theorem field_mapped {w offset : Nat} {base : BitVec 64}
    (h : ∀ k, k < w / 8 → (s.byteAt (base + BitVec.ofNat 64 offset + BitVec.ofNat 64 k)).isSome) :
    ∃ v, ReadsTo env s (field w offset base) v := by
  have hread := @readBytes_reads env s
    (fun k => (s.byteAt (base + BitVec.ofNat 64 offset + BitVec.ofNat 64 k)).getD 0) (w / 8)
    (base + BitVec.ofNat 64 offset) 0 fun k hk => by
      obtain ⟨b, hb⟩ := Option.isSome_iff_exists.mp (h k hk)
      rw [Nat.zero_add, hb]
      rfl
  exact ⟨_, hread.bind (.pure _)⟩

section Relative

variable {hdr : BitVec 64} {len o e : Nat} {img : ByteMem}

/-- What the relocation comes to is the store of what `elf64_get_baseaddr` returns, widened, plus
the addend. -/
theorem elf64DoRela_relative (hfile : FileAt s hdr len img) (h : RelativeEntry img len o e)
    (htarget : ∀ k, k < 8 → (s.byteAt (sectionAddr hdr img (shdrAt img o).shInfo +
      BitVec.ofNat 64 24 + BitVec.ofNat 64 k)).isSome) :
    (elf64DoRela hdr (hdr + BitVec.ofNat 64 e) (hdr + BitVec.ofNat 64 o)).exec (elfExec env) s =
      (do writeBytes 8 (fieldOf 64 0 img e)
            ((baseFrom (segments img)).signExtend 64 + fieldOf 64 16 img e).toNat
          pure 0 : ElfProg (BitVec 32)).exec (elfExec env) s := by
  have hshdr : ShdrReads env s (hdr + BitVec.ofNat 64 o) (shdrAt img o) := shdr_reads hfile h.sect
  have hentry := h.entry
  rw [relSize, if_neg (by decide)] at hentry
  have hrel : ∀ offset, offset + 8 ≤ 24 → ReadsTo env s (field 64 offset (hdr + BitVec.ofNat 64 e))
      (fieldOf 64 offset img e) := fun offset hin => field_reads hfile rfl (by omega)
  obtain ⟨off, hoff⟩ := @field_mapped env s 64 24 _ htarget
  have htype : ReadsTo env s (eType hdr) (fieldOf 16 16 img 0) := ehdr_reads hfile h.header (by omega)
  have hbase := @elf64GetBaseaddr_reads env s hdr len img hfile h.header fun _ => h.phdrs
  rw [if_pos h.exec] at hbase
  unfold elf64DoRela
  rw [hshdr.info.exec_bind, (elf64Section_reads hfile h.header _).exec_bind, shOffset, hoff.exec_bind,
    htype.exec_bind, rOffset, (hrel 0 (by omega)).exec_bind]
  rw [if_neg (show ¬ fieldOf 16 16 img 0 = etRel by rw [h.exec]; decide), hshdr.type.exec_bind, h.rela,
    if_neg (by decide), rAddend, (hrel 16 (by omega)).exec_bind, rInfo, (hrel 8 (by omega)).exec_bind,
    if_neg (not_not.mpr h.symbol), show relType (fieldOf 64 8 img e) = .relative from h.relative]
  exact hbase.exec_bind _

/-- What is stored. -/
theorem storesQuad_iff (hfile : FileAt s hdr len img) (h : RelativeEntry img len o e)
    (htarget : ∀ k, k < 8 → (s.byteAt (sectionAddr hdr img (shdrAt img o).shInfo +
      BitVec.ofNat 64 24 + BitVec.ofNat 64 k)).isSome)
    (hstore : Storable s (fieldOf 64 0 img e) 8) (b : BitVec 64) :
    StoresQuad env s (elf64DoRela hdr (hdr + BitVec.ofNat 64 e) (hdr + BitVec.ofNat 64 o))
        (fieldOf 64 0 img e) (b + fieldOf 64 16 img e) ↔
      (baseFrom (segments img)).signExtend 64 = b := by
  obtain ⟨s', hrun, hstored⟩ := @writeBytes_stored env 8 s (fieldOf 64 0 img e)
    ((baseFrom (segments img)).signExtend 64 + fieldOf 64 16 img e).toNat (by omega) hstore
  have hread : ReadsTo env s' _ _ := hstored.field
  have hexec := @elf64DoRela_relative env s hdr len o e img hfile h htarget
  rw [Prog.exec_bind_some hrun] at hexec
  constructor
  · rintro ⟨s₂, hrun₂, hread₂⟩
    cases hexec.symm.trans hrun₂
    have hsame := hread.exec.symm.trans hread₂.exec
    exact (BitVec.add_left_inj _).mp (Prod.mk.inj (Option.some.inj hsame)).1
  · intro hb
    rw [hb] at hread
    exact ⟨s', hexec, hread⟩

/-- The first of the segments has the smallest address. -/
theorem baseFrom_smallest {ps : List Elf64Phdr} {p : Elf64Phdr} (hp : p ∈ ps)
    (hmin : ∀ q ∈ ps, p.pVaddr.toNat ≤ q.pVaddr.toNat)
    (hsorted : ps.Pairwise fun p q => p.pVaddr.toNat ≤ q.pVaddr.toNat) :
    baseFrom ps = (pageBase p.pVaddr).setWidth 32 := by
  cases ps with
  | nil => cases hp
  | cons q ps =>
    have hle : q.pVaddr.toNat ≤ p.pVaddr.toNat := by
      rcases List.mem_cons.mp hp with rfl | hp
      · exact Nat.le_refl _
      · exact (List.pairwise_cons.mp hsorted).1 p hp
    have heq : q.pVaddr = p.pVaddr :=
      BitVec.eq_of_toNat_eq (Nat.le_antisymm hle (hmin q List.mem_cons_self))
    rw [baseFrom, heq]

end Relative

/-- A file is in memory, an executable one, with its loadable segments in the order of their
addresses, and its smallest such address is that of `p`. A relative relocation of it, with the
header that it reads first mapped and the bytes that it stores to mapped and in no table, stores the
page of that address plus the addend just when the page is one of the first or the last `2 ^ 31`
bytes of memory. -/
theorem relative_base_iff {hdr : BitVec 64} {len o e : Nat} {img : ByteMem}
    (hfile : FileAt s hdr len img) (h : RelativeEntry img len o e)
    (htarget : ∀ k, k < 8 → (s.byteAt (sectionAddr hdr img (shdrAt img o).shInfo +
      BitVec.ofNat 64 24 + BitVec.ofNat 64 k)).isSome)
    (hstore : Storable s (fieldOf 64 0 img e) 8)
    (hsorted : (segments img).Pairwise fun p q => p.pVaddr.toNat ≤ q.pVaddr.toNat)
    {p : Elf64Phdr} (hp : p ∈ segments img)
    (hmin : ∀ q ∈ segments img, p.pVaddr.toNat ≤ q.pVaddr.toNat) :
    StoresQuad env s (elf64DoRela hdr (hdr + BitVec.ofNat 64 e) (hdr + BitVec.ofNat 64 o))
        (fieldOf 64 0 img e) (pageBase p.pVaddr + fieldOf 64 16 img e) ↔
      ((pageBase p.pVaddr).toNat < 2 ^ 31 ∨ 2 ^ 64 - 2 ^ 31 ≤ (pageBase p.pVaddr).toNat) := by
  rw [storesQuad_iff hfile h htarget hstore, baseFrom_smallest hp hmin hsorted]
  exact int_kept_iff _

/-- An executable with a segment at `v` and a relative relocation, with the addend 5, of eight bytes
of its own page. -/
def relativeFile (v : BitVec 64) : Page := fun j =>
  [0x00010102464C457F, 0, 0x00000001003E0002, v, 64, 120, 0x0038004000000000, 0x0000000100400001,
    0x0000000700000001, 0, v, 0, 1, 1, 0x1000,
    0x0000000400000000, 0, 0, 184, 24, 0, 8, 24,
    0xFFFFFFFFC0020F00, 8, 5].getD j.toNat 0

section File

variable {v : BitVec 64}

theorem relativeFile_at :
    FileAt (fileState (relativeFile v)) fileAddr 208 (pageBytes (relativeFile v)) :=
  (fileState_loadable (relativeFile v) (by omega)).file

/-- The header of the only section is in the file. -/
theorem relativeFile_target
    (hinfo : (shdrAt (pageBytes (relativeFile v)) 120).shInfo = 0)
    (hcount : shdrCount (pageBytes (relativeFile v)) = 1)
    (hstart : shdrStart (pageBytes (relativeFile v)) 0 = 120) :
    ∀ k, k < 8 → ((fileState (relativeFile v)).byteAt (sectionAddr fileAddr (pageBytes (relativeFile v))
      (shdrAt (pageBytes (relativeFile v)) 120).shInfo + BitVec.ofNat 64 24 +
        BitVec.ofNat 64 k)).isSome := by
  intro k hk
  rw [hinfo, sectionAddr_inside fileAddr (by rw [hcount]; exact Nat.one_pos),
    show (0 : BitVec 32).toNat = 0 from rfl, hstart, ofNat_add_ofNat, ofNat_add_ofNat,
    relativeFile_at _ (by omega)]
  rfl

/-- The page of the file is no table. -/
theorem relativeFile_storable {a : BitVec 64} (ha : a = fileAddr + BitVec.ofNat 64 0xF00) :
    Storable (fileState (relativeFile v)) a 8 := by
  intro k hk
  have hat := fileState_frameAt (relativeFile v) (show 0xF00 + k < 0x1000 by omega)
  rw [← ofNat_add_ofNat, ← ha] at hat
  refine ⟨0x20, hat, ?_⟩
  refine ((fileState_loadable (relativeFile v) (Nat.le_refl 0x1000)).frames _ _ ?_ hat).2
  exact ⟨0xF00 + k, by omega, by rw [← ofNat_add_ofNat, ha]⟩

end File

/-- A segment at 4 MiB. -/
theorem relative_base_low :
    StoresQuad plainEnv (fileState (relativeFile 0x400000#64))
        (elf64DoRela fileAddr (fileAddr + BitVec.ofNat 64 184) (fileAddr + BitVec.ofNat 64 120))
        (fieldOf 64 0 (pageBytes (relativeFile 0x400000#64)) 184)
        (pageBase 0x400000#64 + fieldOf 64 16 (pageBytes (relativeFile 0x400000#64)) 184) := by
  have hsegs : segments (pageBytes (relativeFile 0x400000#64)) = [⟨1, 0, 0x400000#64, 1, 1⟩] := by
    decide +kernel
  have hentry : RelativeEntry (pageBytes (relativeFile 0x400000#64)) 208 120 184 :=
    ⟨by omega, by decide +kernel, phdrStart_le (by decide +kernel), by decide, by decide +kernel,
      by decide, by decide +kernel, by decide +kernel⟩
  refine (relative_base_iff relativeFile_at hentry
    (relativeFile_target (by decide +kernel) (by decide +kernel) (by decide +kernel))
    (relativeFile_storable (by decide +kernel)) ?_ (p := ⟨1, 0, 0x400000#64, 1, 1⟩) ?_ ?_).mpr
      (Or.inl (by decide))
  · rw [hsegs]
    exact List.pairwise_singleton _ _
  · rw [hsegs]
    exact List.mem_singleton.mpr rfl
  · rw [hsegs]
    intro q hq
    cases List.mem_singleton.mp hq
    exact Nat.le_refl _

/-- A segment at 2 GiB: the base comes back with its sign extended. -/
theorem relative_base_wraps :
    segments (pageBytes (relativeFile 0x80000000#64)) = [⟨1, 0, 0x80000000#64, 1, 1⟩] ∧
      RelativeEntry (pageBytes (relativeFile 0x80000000#64)) 208 120 184 ∧
      ¬ StoresQuad plainEnv (fileState (relativeFile 0x80000000#64))
        (elf64DoRela fileAddr (fileAddr + BitVec.ofNat 64 184) (fileAddr + BitVec.ofNat 64 120))
        (fieldOf 64 0 (pageBytes (relativeFile 0x80000000#64)) 184)
        (pageBase 0x80000000#64 + fieldOf 64 16 (pageBytes (relativeFile 0x80000000#64)) 184) := by
  have hsegs : segments (pageBytes (relativeFile 0x80000000#64)) = [⟨1, 0, 0x80000000#64, 1, 1⟩] := by
    decide +kernel
  have hentry : RelativeEntry (pageBytes (relativeFile 0x80000000#64)) 208 120 184 :=
    ⟨by omega, by decide +kernel, phdrStart_le (by decide +kernel), by decide, by decide +kernel,
      by decide, by decide +kernel, by decide +kernel⟩
  refine ⟨hsegs, hentry, fun h => ?_⟩
  have hbase := (storesQuad_iff relativeFile_at hentry
    (relativeFile_target (by decide +kernel) (by decide +kernel) (by decide +kernel))
    (relativeFile_storable (by decide +kernel)) _).mp h
  rw [hsegs] at hbase
  exact absurd hbase (by decide)

end OS64.Elf
