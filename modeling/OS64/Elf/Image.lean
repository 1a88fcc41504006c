import OS64.Elf.Elf

/-!
# The file as the loader reads it

While the bytes of the file lie where they did, what the loader reads of them is a
function of the file: a field of a structure (`field_reads`), the loadable program
headers (`segments`), whether the header is accepted. `ReadsTo` says of a program that
it reads mapped bytes and nothing else, so that it leaves the state as it is.
-/

namespace OS64.Elf

open OS64.Lib OS64.Mm

/-! ## Programs that only read -/

/-- An operation that leaves `s` alone: a load from a mapped address or a message. -/
def Quiet (s : PageState) (o : ElfOp) (s' : PageState) : Prop :=
  s' = s ∧ ((∃ v, o = .load v ∧ (s.byteAt v).isSome) ∨ ∃ msg, o = .kttyPuts msg)

/-- From `s` the program returns `a`, and all it does is quiet. -/
structure ReadsTo {α : Type} (env : ElfEnv) (s : PageState) (p : ElfProg α) (a : α) : Prop where
  exec : p.exec (elfExec env) s = some (a, s)
  along : p.Along (elfExec env) (Quiet s) s

variable {α β : Type} {env : ElfEnv} {s : PageState}

theorem ReadsTo.pure (a : α) : ReadsTo env s (pure a) a := ⟨rfl, trivial⟩

theorem ReadsTo.bind {p : ElfProg α} {a : α} {f : α → ElfProg β} {b : β} (hp : ReadsTo env s p a)
    (hf : ReadsTo env s (f a) b) : ReadsTo env s (p >>= f) b where
  exec := (Prog.exec_bind_some hp.exec f).trans hf.exec
  along := (Prog.along_bind_some hp.exec f).mpr ⟨hp.along, hf.along⟩

/-- A message before the rest. -/
theorem readsTo_puts (msg : String) : ReadsTo env s (perform (.kttyPuts msg)) () where
  exec := Prog.exec_perform _ _
  along := (Prog.along_perform _ _).mpr ⟨rfl, Or.inr ⟨msg, rfl⟩⟩

theorem readsTo_refuse (msg : String) : ReadsTo env s (refuse msg) false :=
  (readsTo_puts msg).bind (.pure false)

theorem readsTo_load {v : BitVec 64} {b : BitVec 8} (h : s.byteAt v = some b) :
    ReadsTo env s (perform (.load v)) b where
  exec := (Prog.exec_perform _ _).trans (loadByte_mapped h)
  along := (Prog.along_perform _ _).mpr ⟨rfl, Or.inl ⟨v, rfl, by rw [h]; rfl⟩⟩

/-- What comes after a program that only reads. -/
theorem ReadsTo.exec_bind {p : ElfProg α} {a : α} (hp : ReadsTo env s p a) (f : α → ElfProg β) :
    (p >>= f).exec (elfExec env) s = (f a).exec (elfExec env) s :=
  Prog.exec_bind_some hp.exec f

theorem ReadsTo.along_bind {p : ElfProg α} {a : α} (hp : ReadsTo env s p a) (f : α → ElfProg β)
    {Q : ElfOp → PageState → Prop} (hQ : ∀ o, Quiet s o s → Q o s) :
    (p >>= f).Along (elfExec env) Q s ↔ (f a).Along (elfExec env) Q s := by
  rw [Prog.along_bind_some hp.exec f]
  refine and_iff_right (hp.along.mono ?_)
  rintro o s' ⟨rfl, hq⟩
  exact hQ o ⟨rfl, hq⟩

/-! ## Fields -/

/-- The `len` bytes at `hdr` are those of `img`. -/
def FileAt (s : PageState) (hdr : BitVec 64) (len : Nat) (img : ByteMem) : Prop :=
  ∀ k, k < len → s.byteAt (hdr + BitVec.ofNat 64 k) = some (img k)

/-- A field of `w` bits at an offset in the structure that starts at byte `o`. -/
def fieldOf (w offset : Nat) (img : ByteMem) (o : Nat) : BitVec w :=
  BitVec.ofNat w (img.read (o + offset) (w / 8))

theorem ofNat_succ (a : BitVec 64) (k : Nat) :
    a + 1 + BitVec.ofNat 64 k = a + BitVec.ofNat 64 (k + 1) := by
  rw [BitVec.ofNat_add, BitVec.add_assoc, BitVec.add_comm 1]
  rfl

theorem ofNat_add_ofNat (a : BitVec 64) (k n : Nat) :
    a + BitVec.ofNat 64 k + BitVec.ofNat 64 n = a + BitVec.ofNat 64 (k + n) := by
  rw [BitVec.ofNat_add, BitVec.add_assoc]

theorem readBytes_reads {img : ByteMem} : ∀ (n : Nat) {a : BitVec 64} {o : Nat},
    (∀ k, k < n → s.byteAt (a + BitVec.ofNat 64 k) = some (img (o + k))) →
    ReadsTo env s (readBytes n a) (img.read o n)
  | 0, _, _, _ => .pure 0
  | n + 1, a, o, h => by
    have hhead : s.byteAt a = some (img o) := by
      have h0 := h 0 (by omega)
      rwa [BitVec.add_zero] at h0
    refine (readsTo_load hhead).bind ((readBytes_reads n (o := o + 1) fun k hk => ?_).bind
      (.pure _))
    rw [ofNat_succ, h (k + 1) (by omega), Nat.add_assoc, Nat.add_comm 1 k]

variable {hdr : BitVec 64} {len : Nat} {img : ByteMem}

/-- A field of a structure inside the file. -/
theorem field_reads (hfile : FileAt s hdr len img) {w offset o : Nat} {base : BitVec 64}
    (hbase : base = hdr + BitVec.ofNat 64 o) (hin : o + offset + w / 8 ≤ len) :
    ReadsTo env s (field w offset base) (fieldOf w offset img o) := by
  refine (readBytes_reads _ (o := o + offset) fun k hk => ?_).bind (.pure _)
  rw [hbase, ofNat_add_ofNat, ofNat_add_ofNat, hfile _ (by omega), Nat.add_assoc]

/-- A field of the header. -/
theorem ehdr_reads (hfile : FileAt s hdr len img) (hlen : 64 ≤ len) {w offset : Nat}
    (hin : offset + w / 8 ≤ 64) : ReadsTo env s (field w offset hdr) (fieldOf w offset img 0) :=
  field_reads hfile (BitVec.add_zero _).symm (by omega)

theorem elf64Sheader_reads (hfile : FileAt s hdr len img) (hlen : 64 ≤ len) :
    ReadsTo env s (elf64Sheader hdr) (hdr + fieldOf 64 40 img 0) := by
  unfold elf64Sheader
  exact (ehdr_reads hfile hlen (by decide)).bind (.pure _)

theorem elf64Pheader_reads (hfile : FileAt s hdr len img) (hlen : 64 ≤ len) :
    ReadsTo env s (elf64Pheader hdr) (hdr + fieldOf 64 32 img 0) := by
  unfold elf64Pheader
  exact (ehdr_reads hfile hlen (by decide)).bind (.pure _)

/-! ## The header -/

/-- The header is read and nothing is written, whatever the outcome. -/
theorem elf64IsSupported_reads (hfile : FileAt s hdr len img) (hlen : 64 ≤ len) :
    ∃ b, ReadsTo env s (elf64IsSupported hdr) b := by
  have hmagic : ∃ b, ReadsTo env s (elf64CheckMagic hdr) b := by
    unfold elf64CheckMagic
    by_cases h0 : hdr = 0
    · exact ⟨false, by rw [if_pos h0]; exact .pure false⟩
    · rw [if_neg h0]
      have hread : ReadsTo env s (readBytes 4 hdr) (img.read 0 4) :=
        readBytes_reads 4 fun k hk => by rw [hfile k (by omega), Nat.zero_add]
      by_cases hm : img.read 0 4 = elfMag
      · exact ⟨true, hread.bind (by rw [if_neg (not_not.mpr hm)]; exact .pure true)⟩
      · exact ⟨false, hread.bind (by rw [if_pos hm]; exact readsTo_refuse _)⟩
  have hident : ∀ i, i < 16 → ReadsTo env s (eIdent i hdr) (fieldOf 8 i img 0) :=
    fun i hi => ehdr_reads hfile hlen (by omega)
  have hmachine : ReadsTo env s (eMachine hdr) _ := ehdr_reads hfile hlen (by decide)
  have hversion : ReadsTo env s (eVersion hdr) _ := ehdr_reads hfile hlen (by decide)
  have htype : ReadsTo env s (eType hdr) _ := ehdr_reads hfile hlen (by decide)
  -- Each check either ends here or leaves the rest of the checks.
  have hcheck : ∀ {c : Prop} [Decidable c] {msg : String} {p : ElfProg Bool},
      (∃ b, ReadsTo env s p b) → ∃ b, ReadsTo env s (if c then refuse msg else p) b := by
    intro c _ msg p hp
    by_cases hc : c
    · exact ⟨false, by rw [if_pos hc]; exact readsTo_refuse msg⟩
    · rw [if_neg hc]
      exact hp
  have hnext : ∀ {γ : Type} {p : ElfProg γ} {a : γ} {f : γ → ElfProg Bool}, ReadsTo env s p a →
      (∃ b, ReadsTo env s (f a) b) → ∃ b, ReadsTo env s (p >>= f) b :=
    fun hp ⟨b, hb⟩ => ⟨b, hp.bind hb⟩
  obtain ⟨m, hm⟩ := hmagic
  unfold elf64IsSupported
  refine hnext hm (hcheck ?_)
  refine hnext (hident _ (by decide)) (hcheck ?_)
  refine hnext (hident _ (by decide)) (hcheck ?_)
  refine hnext hmachine (hcheck ?_)
  refine hnext hversion (hcheck ?_)
  refine hnext (hident _ (by decide)) (hcheck ?_)
  exact hnext htype (hcheck ⟨true, .pure true⟩)

/-! ## Program headers -/

/-- `Elf64_Phdr`, what the loader uses of it. -/
structure Elf64Phdr where
  pType : BitVec 32
  pOffset : BitVec 64
  pVaddr : BitVec 64
  pFilesz : BitVec 64
  pMemsz : BitVec 64
  deriving DecidableEq

/-- The program header that starts at byte `o`. -/
def phdrAt (img : ByteMem) (o : Nat) : Elf64Phdr :=
  ⟨fieldOf 32 0 img o, fieldOf 64 8 img o, fieldOf 64 16 img o, fieldOf 64 32 img o,
    fieldOf 64 40 img o⟩

/-- The program header at `segment` is read as `p`. -/
structure PhdrReads (env : ElfEnv) (s : PageState) (segment : BitVec 64) (p : Elf64Phdr) : Prop where
  type : ReadsTo env s (pType segment) p.pType
  offset : ReadsTo env s (pOffset segment) p.pOffset
  vaddr : ReadsTo env s (pVaddr segment) p.pVaddr
  filesz : ReadsTo env s (pFilesz segment) p.pFilesz
  memsz : ReadsTo env s (pMemsz segment) p.pMemsz

theorem phdr_reads (hfile : FileAt s hdr len img) {o : Nat} (hin : o + phdrSize ≤ len) :
    PhdrReads env s (hdr + BitVec.ofNat 64 o) (phdrAt img o) := by
  unfold phdrSize at hin
  exact ⟨field_reads hfile rfl (by omega), field_reads hfile rfl (by omega),
    field_reads hfile rfl (by omega), field_reads hfile rfl (by omega),
    field_reads hfile rfl (by omega)⟩

/-- Where program header `i` starts. -/
def phdrStart (img : ByteMem) (i : Nat) : Nat := (fieldOf 64 32 img 0).toNat + phdrSize * i

/-- The number of program headers. -/
def phdrCount (img : ByteMem) : Nat := (fieldOf 16 56 img 0).toNat

/-- Every program header is in the file. -/
def PhdrsInside (img : ByteMem) (len : Nat) : Prop :=
  ∀ i, i < phdrCount img → phdrStart img i + phdrSize ≤ len

/-- Program headers that end in the file are in it. -/
theorem phdrStart_le {img : ByteMem} {len : Nat} (hin : phdrStart img (phdrCount img) ≤ len) :
    PhdrsInside img len := by
  intro i hi
  unfold phdrStart phdrSize at hin ⊢
  omega

/-- Where section header `i` starts. -/
def shdrStart (img : ByteMem) (i : Nat) : Nat := (fieldOf 64 40 img 0).toNat + shdrSize * i

/-- The number of section headers. -/
def shdrCount (img : ByteMem) : Nat := (fieldOf 16 60 img 0).toNat

/-- Every section header is in the file. -/
def ShdrsInside (img : ByteMem) (len : Nat) : Prop :=
  ∀ i, i < shdrCount img → shdrStart img i + shdrSize ≤ len

/-- The loadable segments from program header `i` on, with `n` headers to go. -/
def segmentsFrom (img : ByteMem) : Nat → Nat → List Elf64Phdr
  | 0, _ => []
  | n + 1, i =>
    if (phdrAt img (phdrStart img i)).pType = ptLoad then
      phdrAt img (phdrStart img i) :: segmentsFrom img n (i + 1)
    else segmentsFrom img n (i + 1)

/-- The loadable segments of a file, in its order. -/
def segments (img : ByteMem) : List Elf64Phdr := segmentsFrom img (phdrCount img) 0

theorem phdrCount_lt (img : ByteMem) : phdrCount img < 2 ^ 16 := (fieldOf 16 56 img 0).isLt

theorem shdrCount_lt (img : ByteMem) : shdrCount img < 2 ^ 16 := (fieldOf 16 60 img 0).isLt

theorem entryAt_eq (hdr off : BitVec 64) (size i : Nat) :
    entryAt (hdr + off) size i = hdr + BitVec.ofNat 64 (off.toNat + size * i) := by
  rw [entryAt, BitVec.ofNat_add, BitVec.ofNat_toNat, BitVec.setWidth_eq, BitVec.add_assoc]

/-! ## Section headers -/

/-- `Elf64_Shdr`, what the loader uses of it. -/
structure Elf64Shdr where
  shType : BitVec 32
  shOffset : BitVec 64
  shSize : BitVec 64
  shLink : BitVec 32
  shInfo : BitVec 32
  shEntsize : BitVec 64
  deriving DecidableEq

/-- The section header that starts at byte `o`. -/
def shdrAt (img : ByteMem) (o : Nat) : Elf64Shdr :=
  ⟨fieldOf 32 4 img o, fieldOf 64 24 img o, fieldOf 64 32 img o, fieldOf 32 40 img o,
    fieldOf 32 44 img o, fieldOf 64 56 img o⟩

/-- The section header at `sect` is read as `p`. -/
structure ShdrReads (env : ElfEnv) (s : PageState) (sect : BitVec 64) (p : Elf64Shdr) : Prop where
  type : ReadsTo env s (shType sect) p.shType
  offset : ReadsTo env s (shOffset sect) p.shOffset
  size : ReadsTo env s (shSize sect) p.shSize
  link : ReadsTo env s (shLink sect) p.shLink
  info : ReadsTo env s (shInfo sect) p.shInfo
  entsize : ReadsTo env s (shEntsize sect) p.shEntsize

theorem shdr_reads (hfile : FileAt s hdr len img) {o : Nat} (hin : o + shdrSize ≤ len) :
    ShdrReads env s (hdr + BitVec.ofNat 64 o) (shdrAt img o) := by
  unfold shdrSize at hin
  exact ⟨field_reads hfile rfl (by omega), field_reads hfile rfl (by omega),
    field_reads hfile rfl (by omega), field_reads hfile rfl (by omega),
    field_reads hfile rfl (by omega), field_reads hfile rfl (by omega)⟩

/-- Where `elf64_section` leads. -/
def sectionAddr (hdr : BitVec 64) (img : ByteMem) (idx : BitVec 32) : BitVec 64 :=
  if (shdrCount img : Int) ≤ idx.toInt then 0
  else hdr + fieldOf 64 40 img 0 + idx.signExtend 64 * BitVec.ofNat 64 shdrSize

theorem elf64Section_reads (hfile : FileAt s hdr len img) (hlen : 64 ≤ len) (idx : BitVec 32) :
    ReadsTo env s (elf64Section hdr idx) (sectionAddr hdr img idx) := by
  have hcount : ReadsTo env s (eShnum hdr) (fieldOf 16 60 img 0) := ehdr_reads hfile hlen (by decide)
  unfold elf64Section sectionAddr
  refine hcount.bind ?_
  by_cases hover : (shdrCount img : Int) ≤ idx.toInt
  · rw [if_pos hover, if_pos (show ((fieldOf 16 60 img 0).toNat : Int) ≤ idx.toInt from hover)]
    exact .pure 0
  · rw [if_neg hover, if_neg (show ¬ ((fieldOf 16 60 img 0).toNat : Int) ≤ idx.toInt from hover)]
    exact (elf64Sheader_reads hfile hlen).bind (.pure _)

/-- A section that the file has is found. -/
theorem sectionAddr_inside (hdr : BitVec 64) {idx : BitVec 32} (hidx : idx.toNat < shdrCount img) :
    sectionAddr hdr img idx = hdr + BitVec.ofNat 64 (shdrStart img idx.toNat) := by
  have hlt := shdrCount_lt img
  have hint : idx.toInt = idx.toNat := by
    rw [BitVec.toInt_eq_toNat_of_lt]
    omega
  have hmul : idx.signExtend 64 * BitVec.ofNat 64 shdrSize = BitVec.ofNat 64 (shdrSize * idx.toNat) := by
    have hext : idx.signExtend 64 = BitVec.ofNat 64 idx.toNat := by
      rw [BitVec.signExtend_eq_setWidth_of_msb_false, ← BitVec.ofNat_toNat]
      rw [BitVec.msb_eq_decide, decide_eq_false]
      omega
    rw [hext, ← BitVec.ofNat_mul, Nat.mul_comm]
  have haddr : hdr + fieldOf 64 40 img 0 + BitVec.ofNat 64 (shdrSize * idx.toNat) =
      hdr + BitVec.ofNat 64 (shdrStart img idx.toNat) := entryAt_eq _ _ _ _
  rw [sectionAddr, hint, if_neg (by omega), hmul, haddr]

/-- What `elf64_get_baseaddr` makes of the loadable segments: the page of the first one. -/
def baseFrom : List Elf64Phdr → BitVec 32
  | [] => 0
  | p :: _ => (pageBase p.pVaddr).setWidth 32

/-- The loop over the program headers that looks for the first loadable one. -/
theorem baseaddrLoop_reads (hfile : FileAt s hdr len img) (hlen : 64 ≤ len)
    (hin : PhdrsInside img len) :
    ∀ (n i fuel : Nat), i + n = phdrCount img → n < fuel →
    ReadsTo env s (baseaddrLoop hdr (hdr + fieldOf 64 32 img 0) fuel i) (baseFrom (segmentsFrom img n i))
  | n, i, 0, _, hfuel => absurd hfuel (by omega)
  | 0, i, fuel + 1, hi, _ => by
    have hcount : ReadsTo env s (ePhnum hdr) (fieldOf 16 56 img 0) := ehdr_reads hfile hlen (by decide)
    have hend : ¬ i < (fieldOf 16 56 img 0).toNat := by
      show ¬ i < phdrCount img
      omega
    refine hcount.bind ?_
    rw [if_neg hend]
    exact .pure 0
  | n + 1, i, fuel + 1, hi, hfuel => by
    have hrest := baseaddrLoop_reads hfile hlen hin n (i + 1) fuel (by omega) (by omega)
    have hstart : phdrStart img i + phdrSize ≤ len := hin i (by omega)
    have hgo : i < (fieldOf 16 56 img 0).toNat := by
      show i < phdrCount img
      omega
    have haddr : entryAt (hdr + fieldOf 64 32 img 0) phdrSize i =
        hdr + BitVec.ofNat 64 (phdrStart img i) := entryAt_eq _ _ _ _
    have hcount : ReadsTo env s (ePhnum hdr) (fieldOf 16 56 img 0) := ehdr_reads hfile hlen (by decide)
    have hphdr : PhdrReads env s (hdr + BitVec.ofNat 64 (phdrStart img i)) _ := phdr_reads hfile hstart
    refine hcount.bind ?_
    rw [if_pos hgo, haddr, segmentsFrom]
    refine hphdr.type.bind ?_
    by_cases hpt : (phdrAt img (phdrStart img i)).pType = ptLoad
    · rw [if_pos hpt, if_pos hpt]
      exact hphdr.vaddr.bind (.pure _)
    · rw [if_neg hpt, if_neg hpt]
      exact hrest

/-- The base of a file is a function of the file. -/
theorem elf64GetBaseaddr_reads (hfile : FileAt s hdr len img) (hlen : 64 ≤ len)
    (hin : fieldOf 16 16 img 0 = etExec → PhdrsInside img len) :
    ReadsTo env s (elf64GetBaseaddr hdr)
      (if fieldOf 16 16 img 0 = etExec then baseFrom (segments img) else 0) := by
  have htype : ReadsTo env s (eType hdr) (fieldOf 16 16 img 0) := ehdr_reads hfile hlen (by decide)
  unfold elf64GetBaseaddr
  refine htype.bind ?_
  by_cases hexec : fieldOf 16 16 img 0 = etExec
  · rw [if_neg (not_not.mpr hexec), if_pos hexec]
    exact (elf64Pheader_reads hfile hlen).bind (baseaddrLoop_reads hfile hlen (hin hexec) (phdrCount img) 0
      (2 ^ 16) (by omega) (phdrCount_lt img))
  · rw [if_pos hexec, if_neg hexec]
    exact .pure 0

/-! ## Relocations -/

/-- A section of relocations. -/
def isRelTable (p : Elf64Shdr) : Prop := p.shType = shtRel ∨ p.shType = shtRela

instance (p : Elf64Shdr) : Decidable (isRelTable p) := inferInstanceAs (Decidable (_ ∨ _))

/-- The number of its entries. -/
def relCount (p : Elf64Shdr) : Nat := p.shSize.toNat / p.shEntsize.toNat

/-- Where its entry `j` starts. -/
def relStart (p : Elf64Shdr) (j : Nat) : Nat := p.shOffset.toNat + relSize p.shType * j

/-- What the relocation at byte `o` is applied to, for a table of the section `p`. -/
def relRef (hdr : BitVec 64) (img : ByteMem) (p : Elf64Shdr) (o : Nat) : BitVec 64 :=
  if fieldOf 16 16 img 0 = etRel then
    hdr + (shdrAt img (shdrStart img p.shInfo.toNat)).shOffset + fieldOf 64 0 img o
  else fieldOf 64 0 img o

/-- The type of the relocation at byte `o`. -/
def relTypeAt (img : ByteMem) (o : Nat) : RelType := relType (fieldOf 64 8 img o)

/-- The bytes a relocation stores. -/
def storeLen : RelType → Nat
  | .amd64 | .relative | .irelative => 8
  | .pc32 => 4
  | .none | .unsupported => 0

/-- The entry `j` of a table is where it lies. -/
theorem elf64GetRela_reads (hfile : FileAt s hdr len img) {o : Nat} (hin : o + shdrSize ≤ len)
    {idx : BitVec 32} : ReadsTo env s (elf64GetRela hdr (hdr + BitVec.ofNat 64 o) idx)
      (hdr + BitVec.ofNat 64 (relStart (shdrAt img o) idx.toNat)) := by
  have hshdr : ShdrReads env s (hdr + BitVec.ofNat 64 o) (shdrAt img o) := shdr_reads hfile hin
  have haddr : entryAt (hdr + (shdrAt img o).shOffset) (relSize (shdrAt img o).shType) idx.toNat =
      hdr + BitVec.ofNat 64 (relStart (shdrAt img o) idx.toNat) := entryAt_eq _ _ _ _
  unfold elf64GetRela
  rw [← haddr]
  exact hshdr.type.bind (hshdr.offset.bind (.pure _))

end OS64.Elf
