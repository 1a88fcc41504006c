import OS64.Elf.LoadExec

/-!
# The image of an executable

`elf64_load_file` on an executable without relocations returns the entry point, and what
it leaves in memory is the image the file describes just where no byte of a segment lies
in a page that a later segment takes again, or the frame taken for that page happens to
hold the right byte (`image_built_iff`). The ranges of bytes may be as disjoint as they
like: pages are what is mapped.
-/

namespace OS64.Elf

open OS64.Lib OS64.Mm

variable {s₀ s : PageState} {hdr : BitVec 64} {len : Nat} {img : ByteMem} {env : ElfEnv}
  {us : List (BitVec 64)}

/-! ## The loops of the loader -/

/-- The loop over the program headers. -/
theorem segmentLoop_spec (hload : Loadable s₀ hdr len img) (hlen : 64 ≤ len)
    (hin : PhdrsInside img len) : ∀ (n i fuel : Nat) {s : PageState}
    {us : List (BitVec 64)} {done : List Elf64Phdr}, i + n = phdrCount img → n < fuel →
    LoadInv s₀ s hdr len img us done → (∀ p ∈ done ++ segmentsFrom img n i, p.Fits len) →
    (done ++ segmentsFrom img n i).Pairwise Elf64Phdr.Apart →
    (segmentLoop hdr (hdr + fieldOf 64 32 img 0) fuel i).Along (elfExec env) allocMeets s →
    ∃ s' us', (segmentLoop hdr (hdr + fieldOf 64 32 img 0) fuel i).exec (elfExec env) s =
        some (0, s') ∧ LoadInv s₀ s' hdr len img us' (done ++ segmentsFrom img n i)
  | n, i, 0, _, _, _, _, hfuel, _, _, _, _ => absurd hfuel (by omega)
  | 0, i, fuel + 1, s, us, done, hi, _, h, _, _, _ => by
    have hcount : ReadsTo env s (ePhnum hdr) (fieldOf 16 56 img 0) :=
      ehdr_reads (hload.fileAt h.pages) hlen (by decide)
    refine ⟨s, us, ?_, by rw [segmentsFrom, List.append_nil]; exact h⟩
    have hend : ¬ i < (fieldOf 16 56 img 0).toNat := by
      show ¬ i < phdrCount img
      omega
    rw [segmentLoop, hcount.exec_bind, if_neg hend]
    rfl
  | n + 1, i, fuel + 1, s, us, done, hi, hfuel, h, hfits, hapart, hmeets => by
    have hfile := hload.fileAt h.pages
    have hcount : ReadsTo env s (ePhnum hdr) (fieldOf 16 56 img 0) := ehdr_reads hfile hlen (by decide)
    have hgo : i < (fieldOf 16 56 img 0).toNat := by
      show i < phdrCount img
      omega
    have hstart : phdrStart img i + phdrSize ≤ len := hin i hgo
    have haddr : entryAt (hdr + fieldOf 64 32 img 0) phdrSize i =
        hdr + BitVec.ofNat 64 (phdrStart img i) := entryAt_eq _ _ _ _
    have htype : ReadsTo env s (pType (hdr + BitVec.ofNat 64 (phdrStart img i))) _ :=
      (phdr_reads hfile hstart).type
    rw [segmentLoop, hcount.exec_bind, if_pos hgo, haddr]
    rw [segmentLoop, hcount.along_bind _ allocMeets_quiet, if_pos hgo, haddr] at hmeets
    dsimp only at hmeets ⊢
    rw [htype.exec_bind]
    rw [htype.along_bind _ allocMeets_quiet] at hmeets
    unfold segmentsFrom at hfits hapart ⊢
    by_cases hpt : (phdrAt img (phdrStart img i)).pType = ptLoad
    · rw [if_pos hpt] at hfits hapart hmeets
      rw [if_pos hpt, if_pos hpt]
      rw [← List.singleton_append, ← List.append_assoc] at hfits hapart ⊢
      -- what is loaded already stays, as no later segment has a byte of it
      have hdone : ∀ d ∈ done, d.Apart (phdrAt img (phdrStart img i)) := by
        intro d hd
        have hfirst := (List.pairwise_append.mp hapart).1
        exact (List.pairwise_append.mp hfirst).2.2 d hd _ List.mem_cons_self
      rw [Prog.along_bind] at hmeets
      obtain ⟨s₁, hrun₁, hs₁⟩ := h.segment hload hstart
        (hfits _ (List.mem_append_left _ (List.mem_append_right _ List.mem_cons_self)))
        (fun d hd => hfits d (List.mem_append_left _ (List.mem_append_left _ hd))) hdone hmeets.1
      rw [Prog.exec_bind_some hrun₁]
      exact segmentLoop_spec hload hlen hin n (i + 1) fuel (by omega) (by omega) hs₁ hfits hapart
        (hmeets.2 _ hrun₁)
    · rw [if_neg hpt] at hfits hapart hmeets
      rw [if_neg hpt, if_neg hpt]
      exact segmentLoop_spec hload hlen hin n (i + 1) fuel (by omega) (by omega) h hfits hapart hmeets

/-- The loop over the sections finds no relocations. -/
theorem sectionLoop_reads (hfile : FileAt s hdr len img) (hlen : 64 ≤ len)
    (hin : ShdrsInside img len)
    (hno : ∀ i, i < shdrCount img → fieldOf 32 4 img (shdrStart img i) ≠ shtRel ∧
      fieldOf 32 4 img (shdrStart img i) ≠ shtRela) : ∀ (n i fuel : Nat), i + n = shdrCount img →
    n < fuel → ReadsTo env s (sectionLoop hdr (hdr + fieldOf 64 40 img 0) fuel i) 0
  | n, i, 0, _, hfuel => absurd hfuel (by omega)
  | 0, i, fuel + 1, hi, _ => by
    have hcount : ReadsTo env s (eShnum hdr) (fieldOf 16 60 img 0) := ehdr_reads hfile hlen (by decide)
    have hend : ¬ i < (fieldOf 16 60 img 0).toNat := by
      show ¬ i < shdrCount img
      omega
    refine hcount.bind ?_
    rw [if_neg hend]
    exact .pure 0
  | n + 1, i, fuel + 1, hi, hfuel => by
    have hcount : ReadsTo env s (eShnum hdr) (fieldOf 16 60 img 0) := ehdr_reads hfile hlen (by decide)
    have hgo : i < (fieldOf 16 60 img 0).toNat := by
      show i < shdrCount img
      omega
    have haddr : entryAt (hdr + fieldOf 64 40 img 0) shdrSize i =
        hdr + BitVec.ofNat 64 (shdrStart img i) := entryAt_eq _ _ _ _
    have htype : ReadsTo env s (shType (hdr + BitVec.ofNat 64 (shdrStart img i)))
        (fieldOf 32 4 img (shdrStart img i)) := by
      have hstart : shdrStart img i + shdrSize ≤ len := hin i hgo
      unfold shdrSize at hstart
      exact field_reads hfile rfl (by omega)
    have hnot : ¬ (fieldOf 32 4 img (shdrStart img i) = shtRel ∨
        fieldOf 32 4 img (shdrStart img i) = shtRela) :=
      not_or.mpr (hno i (by omega))
    refine hcount.bind ?_
    rw [if_pos hgo, haddr]
    refine htype.bind ?_
    rw [if_neg hnot]
    exact (readsTo_puts _).bind
      (sectionLoop_reads hfile hlen hin hno n (i + 1) fuel (by omega) (by omega))

/-! ## The whole load -/

/-- An executable without relocations, its tables inside the file, its segments in the lower
half and no two of them on the same byte. -/
structure ExecFile (img : ByteMem) (len : Nat) : Prop where
  header : 64 ≤ len
  type : fieldOf 16 16 img 0 = etExec
  phdrs : PhdrsInside img len
  shdrs : ShdrsInside img len
  noRel : ∀ i, i < shdrCount img → fieldOf 32 4 img (shdrStart img i) ≠ shtRel ∧
    fieldOf 32 4 img (shdrStart img i) ≠ shtRela
  fits : ∀ p ∈ segments img, p.Fits len
  apart : (segments img).Pairwise Elf64Phdr.Apart

/-- The entry point the file names. -/
def entryPoint (img : ByteMem) : BitVec 64 := fieldOf 64 24 img 0

/-- The image in memory is the one the file describes. -/
def Built (s : PageState) (img : ByteMem) : Prop :=
  ∀ p ∈ segments img, ∀ k, k < p.pMemsz.toNat → s.byteAt (p.addr k) = some (p.byte img k)

/-- No byte of a segment lies in a page that a later segment takes again, or the frame its
page has in the end held the right byte before. -/
def Survives (s₀ s : PageState) (img : ByteMem) : Prop :=
  (segments img).Pairwise fun p q => ∀ k, k < p.pMemsz.toNat → q.covers (p.addr k) →
    ∀ f, s.frameAt (p.addr k) = some f →
      pageByte (s₀.mem f) (pageOffset (p.addr k)) = p.byte img k

/-- No byte of a segment lies in a page that a later segment takes again. -/
def PagesApart (img : ByteMem) : Prop :=
  (segments img).Pairwise fun p q => ∀ k, k < p.pMemsz.toNat → ¬ q.covers (p.addr k)

theorem PagesApart.survives (h : PagesApart img) : Survives s₀ s img :=
  List.Pairwise.imp (fun hpq k hk hc => absurd hc (hpq k hk)) h

/-- `Built`, segment by segment from the last. -/
theorem built_iff_survives : ∀ {ps : List Elf64Phdr}, Settled s₀ s img ps →
    ((∀ p ∈ ps, ∀ k, k < p.pMemsz.toNat → s.byteAt (p.addr k) = some (p.byte img k)) ↔
      ps.Pairwise fun p q => ∀ k, k < p.pMemsz.toNat → q.covers (p.addr k) →
        ∀ f, s.frameAt (p.addr k) = some f →
          pageByte (s₀.mem f) (pageOffset (p.addr k)) = p.byte img k)
  | [], _ => by simp
  | p :: rest, h => by
    obtain ⟨hhead, htail⟩ := h
    rw [List.pairwise_cons, ← built_iff_survives htail, List.forall_mem_cons]
    refine and_congr_left fun _ => ?_
    constructor
    · intro hbuilt q hq k hk hc f hf
      obtain ⟨f', hf', -, hbyte⟩ := (hhead k hk).1 ⟨q, hq, hc⟩
      rw [hf'] at hf
      cases hf
      exact Option.some.inj (hbyte.symm.trans (hbuilt k hk))
    · intro hsurv k hk
      by_cases hc : ∃ q ∈ rest, q.covers (p.addr k)
      · obtain ⟨f, hf, -, hbyte⟩ := (hhead k hk).1 hc
        obtain ⟨q, hq, hqc⟩ := hc
        rw [hbyte, hsurv q hq k hk hqc f hf]
      · exact (hhead k hk).2 fun q hq hqc => hc ⟨q, hq, hqc⟩

/-- The load of an executable to its end. -/
theorem elf64LoadFile_exec (hload : Loadable s hdr len img) (hfile : ExecFile img len)
    (haccept : ∃ s', (elf64IsSupported hdr).exec (elfExec env) s = some (true, s'))
    (hmeets : (elf64LoadFile hdr).Along (elfExec env) allocMeets s) :
    ∃ s' us, (elf64LoadFile hdr).exec (elfExec env) s = some (entryPoint img, s') ∧
      LoadInv s s' hdr len img us (segments img) := by
  have hlen := hfile.header
  obtain ⟨b, hsupp⟩ : ∃ b, ReadsTo env s (elf64IsSupported hdr) b :=
    elf64IsSupported_reads hload.file hlen
  obtain ⟨s', hs'⟩ := haccept
  cases Option.some.inj (hsupp.exec.symm.trans hs')
  have htype : ReadsTo env s (eType hdr) (fieldOf 16 16 img 0) := ehdr_reads hload.file hlen (by decide)
  have hpheader : ReadsTo env s (elf64Pheader hdr) _ := elf64Pheader_reads hload.file hlen
  unfold elf64LoadFile at hmeets ⊢
  rw [hsupp.exec_bind, if_neg (by decide), htype.exec_bind, if_pos hfile.type]
  rw [hsupp.along_bind _ allocMeets_quiet, if_neg (by decide), htype.along_bind _ allocMeets_quiet,
    if_pos hfile.type] at hmeets
  unfold elf64LoadExec elf64LoadStage3 at hmeets ⊢
  rw [Prog.along_bind, hpheader.along_bind _ allocMeets_quiet] at hmeets
  have hcount := phdrCount_lt img
  have hstart : LoadInv s s hdr len img [] [] := ⟨hload.pages, by simp, trivial⟩
  obtain ⟨s₁, us, hrun, hinv⟩ := segmentLoop_spec hload hlen hfile.phdrs (phdrCount img) 0 (2 ^ 16)
    (by omega) (by omega) hstart hfile.fits hfile.apart hmeets.1
  have hfile₁ := hload.fileAt hinv.pages
  have hstage2 : ReadsTo env s₁ (elf64LoadStage2 hdr) 0 := by
    have hsections := shdrCount_lt img
    unfold elf64LoadStage2
    exact (elf64Sheader_reads hfile₁ hlen).bind (sectionLoop_reads hfile₁ hlen hfile.shdrs
      hfile.noRel (shdrCount img) 0 (2 ^ 16) (by omega) (by omega))
  have hentry : ReadsTo env s₁ (eEntry hdr) (entryPoint img) := ehdr_reads hfile₁ hlen (by decide)
  have hstage3 : (elf64Pheader hdr >>= fun phdr => segmentLoop hdr phdr (2 ^ 16) 0).exec (elfExec env)
      s = some (0, s₁) := by
    rw [hpheader.exec_bind]
    exact hrun
  refine ⟨s₁, us, ?_, hinv⟩
  rw [Prog.exec_bind_some hstage3, if_neg (by decide), hstage2.exec_bind, if_neg (by decide)]
  exact hentry.exec

/-- An executable is loaded and its entry point returned; the image is the one it describes
just where the pages of its segments survive, as they do where none of them is taken again. -/
theorem image_built_iff (hload : Loadable s hdr len img) (hfile : ExecFile img len)
    (haccept : ∃ s', (elf64IsSupported hdr).exec (elfExec env) s = some (true, s'))
    (hmeets : (elf64LoadFile hdr).Along (elfExec env) allocMeets s) :
    ∃ s', (elf64LoadFile hdr).exec (elfExec env) s = some (entryPoint img, s') ∧
      (Built s' img ↔ Survives s s' img) ∧ (PagesApart img → Built s' img) := by
  obtain ⟨s', us, hrun, hinv⟩ := elf64LoadFile_exec hload hfile haccept hmeets
  have hiff : Built s' img ↔ Survives s s' img := built_iff_survives hinv.settled
  exact ⟨s', hrun, hiff, fun hapart => hiff.mpr hapart.survives⟩

/-! ## A file in memory -/

/-- A machine whose tree maps one page besides the window, and the file `page` in it. -/
def fileState (page : Page) : PageState where
  mem f :=
    if f = 0x10 then tableOf 511 (calcPage 0x11000#64)
    else if f = 0x11 then tableOf 511 (calcPage 0x12000#64)
    else if f = 0x12 then tableOf 0 (calcPage 0x13000#64)
    else if f = 0x13 then tableOf 0x20 (calcPage 0x20000#64)
    else if f = 0x20 then page
    else fun _ => 0
  phys := bootPhys
  pml4 := 0x10000#64
  kernelPt := 0xFFFFFFFFC0013000#64
  cr3 := 0x10000#64
  sema := 0
  intf := true

/-- Where the file lies. -/
def fileAddr : BitVec 64 := 0xFFFFFFFFC0020000#64

/-- The bytes of a page. -/
def pageBytes (page : Page) : ByteMem := fun k => pageByte page (BitVec.ofNat 12 k)

theorem fileState_root (page : Page) : (fileState page).root = 0x10 :=
  show frameOf 0x10000#64 = 0x10 by decide

theorem fileState_kptFrame (page : Page) : (fileState page).kptFrame = 0x13 :=
  show frameOf (0xFFFFFFFFC0013000#64 &&& 0x0FFFFFFF#64) = 0x13 by decide

theorem fileState_chain (page : Page) : TableChain (fileState page) 0x10 0x11 0x12 0x13 where
  pml4 i := by
    rw [show (fileState page).mem 0x10 = tableOf 511 (calcPage 0x11000#64) from rfl, tableOf_next]
    rw [show frameOf 0x11000#64 = 0x11 by decide]
  pdp i := by
    rw [show (fileState page).mem 0x11 = tableOf 511 (calcPage 0x12000#64) from rfl, tableOf_next]
    rw [show frameOf 0x12000#64 = 0x12 by decide]
  pd i := by
    rw [show (fileState page).mem 0x12 = tableOf 0 (calcPage 0x13000#64) from rfl, tableOf_next]
    rw [show frameOf 0x13000#64 = 0x13 by decide]

theorem fileState_space (page : Page) : frameOf (fileState page).cr3 = (fileState page).root := rfl

theorem fileState_tree (page : Page) : PageTree (fileState page) := by
  have hchain := fileState_chain page
  rw [← fileState_root page, ← fileState_kptFrame page] at hchain
  apply tableChain_tree hchain
  · rw [fileState_root, fileState_kptFrame]
    decide
  · rw [fileState_root, fileState_kptFrame]
    intro f hf
    refine bootPhys_taken ?_
    simp only [List.mem_cons, List.not_mem_nil, or_false] at hf
    rcases hf with rfl | rfl | rfl | rfl <;> decide

/-- The page of the file. -/
theorem fileState_frameAt (page : Page) {k : Nat} (hk : k < 0x1000) :
    (fileState page).frameAt (fileAddr + BitVec.ofNat 64 k) = some 0x20 := by
  have hval : (fileAddr + BitVec.ofNat 64 k).toNat = 0xFFFFFFFFC0020000 + k := by
    rw [BitVec.toNat_add, BitVec.toNat_ofNat, show fileAddr.toNat = 0xFFFFFFFFC0020000 from rfl]
    omega
  have hcan : canonical (fileAddr + BitVec.ofNat 64 k) = true := by
    rw [canonical, hval, decide_eq_true (show 2 ^ 64 - 2 ^ 47 ≤ 0xFFFFFFFFC0020000 + k by omega),
      Bool.or_true]
  have hpath : pagePath (fileAddr + BitVec.ofNat 64 k) = kernelPath ++ [0x20] := by
    have hfile : pagePath fileAddr = kernelPath ++ [0x20] := by decide
    rw [← hfile, pagePath_eq_iff, hval, show fileAddr.toNat = 0xFFFFFFFFC0020000 from rfl]
    omega
  rw [frameAt_eq_some (fileState_space page) hcan]
  refine ⟨calcPage 0x20000#64, ?_, by decide⟩
  rw [translate_eq _ _ hpath, fileState_root]
  exact lookup_eq_some.mpr ⟨0x13, tableChain_kernel (fileState_chain page), rfl, by decide⟩

theorem fileState_loadable (page : Page) {len : Nat} (hlen : len ≤ 0x1000) :
    Loadable (fileState page) fileAddr len (pageBytes page) where
  tree := fileState_tree page
  space := rfl
  above := show 0xFFFFFFFFC0001000 ≤ fileAddr.toNat by decide
  fits := by
    rw [show fileAddr.toNat = 0xFFFFFFFFC0020000 from rfl]
    omega
  file k hk := by
    have hoff : pageOffset (fileAddr + BitVec.ofNat 64 k) = BitVec.ofNat 12 k := by
      apply BitVec.eq_of_toNat_eq
      rw [pageOffset_toNat, BitVec.toNat_add, BitVec.toNat_ofNat, BitVec.toNat_ofNat,
        show fileAddr.toNat = 0xFFFFFFFFC0020000 from rfl]
      omega
    rw [byteAt_of_frame (fileState_frameAt page (by omega)), hoff]
    rfl
  frames a f := by
    rintro ⟨k, hk, rfl⟩ hf
    rw [fileState_frameAt page (by omega)] at hf
    cases hf
    refine ⟨bootPhys_taken (by decide), fun q hq hqf => ?_⟩
    rw [fileState_root] at hqf
    rcases tableChain_walk (fileState_chain page) hq hqf with ⟨-, h⟩ | ⟨-, h⟩ | ⟨-, h⟩ | ⟨-, h⟩ <;>
      exact absurd h (by decide)

/-- The free frames are cleared. -/
theorem fileState_free (page : Page) {f : Frame} (hf : (fileState page).free f) :
    (fileState page).mem f = fun _ => 0 := by
  have hword : f.toNat / 64 = 4 := by
    by_contra hne
    exact bootPhys_taken hne hf
  have hother : ∀ g : Frame, g.toNat / 64 ≠ 4 → f ≠ g := by
    rintro g hg rfl
    exact hg hword
  show (if f = 0x10 then _ else _ : Page) = _
  rw [if_neg (hother _ (by decide)), if_neg (hother _ (by decide)), if_neg (hother _ (by decide)),
    if_neg (hother _ (by decide)), if_neg (hother _ (by decide))]

/-! ## Two segments -/

/-- An executable with a segment of one byte at `v` and another at `w`. -/
def twoSegments (v w : BitVec 64) : Page := fun j =>
  [0x00010102464C457F, 0, 0x00000001003E0002, v, 64, 0, 0x0038004000000000, 0x0000000000400002,
    0x0000000700000001, 176, v, 0, 1, 1, 0x1000,
    0x0000000700000001, 177, w, 0, 1, 1, 0x1000,
    0x00000000000022C3].getD j.toNat 0

/-- Nothing is called and no value is missing. -/
def plainEnv : ElfEnv := ⟨0xFFFFFFFFC0160000#64, fun _ => 0, fun _ _ => none⟩

/-- A run told by its result. -/
theorem exec_of_result {α : Type} {p : ElfProg α} {a : α}
    (h : (p.exec (elfExec env) s).map Prod.fst = some a) :
    ∃ s', p.exec (elfExec env) s = some (a, s') := by
  obtain ⟨⟨b, s'⟩, hrun, rfl⟩ := Option.map_eq_some_iff.mp h
  exact ⟨s', hrun⟩

/-- What is read of such a file. -/
theorem twoSegments_file {v w : BitVec 64}
    (hsegs : segments (pageBytes (twoSegments v w)) = [⟨1, 176, v, 1, 1⟩, ⟨1, 177, w, 1, 1⟩])
    (htype : fieldOf 16 16 (pageBytes (twoSegments v w)) 0 = etExec)
    (hphdrs : phdrStart (pageBytes (twoSegments v w)) (phdrCount (pageBytes (twoSegments v w))) = 176)
    (hcount : shdrCount (pageBytes (twoSegments v w)) = 0) (hv : v.toNat < 2 ^ 47)
    (hw : w.toNat < 2 ^ 47) (hne : v ≠ w) : ExecFile (pageBytes (twoSegments v w)) 184 where
  header := by decide
  type := htype
  phdrs := phdrStart_le (by omega)
  shdrs i hi := by
    rw [hcount] at hi
    exact absurd hi (Nat.not_lt_zero i)
  noRel i hi := by
    rw [hcount] at hi
    exact absurd hi (by omega)
  fits p hp := by
    rw [hsegs] at hp
    simp only [List.mem_cons, List.not_mem_nil, or_false] at hp
    have hone : (1 : BitVec 64).toNat = 1 := rfl
    rcases hp with rfl | rfl
    · refine ⟨?_, ?_, ?_⟩
      · exact show (176 : BitVec 64).toNat + (1 : BitVec 64).toNat ≤ 184 by decide
      · exact le_refl (1 : BitVec 64).toNat
      · show v.toNat + (1 : BitVec 64).toNat ≤ 2 ^ 47
        omega
    · refine ⟨?_, ?_, ?_⟩
      · exact show (177 : BitVec 64).toNat + (1 : BitVec 64).toNat ≤ 184 by decide
      · exact le_refl (1 : BitVec 64).toNat
      · show w.toNat + (1 : BitVec 64).toNat ≤ 2 ^ 47
        omega
  apart := by
    rw [hsegs, List.pairwise_cons]
    refine ⟨fun q hq j k hj hk heq => ?_, List.pairwise_singleton _ _⟩
    cases List.mem_singleton.mp hq
    have hj0 : j = 0 := Nat.lt_one_iff.mp hj
    have hk0 : k = 0 := Nat.lt_one_iff.mp hk
    subst hj0 hk0
    refine hne ?_
    have hz : ∀ a : BitVec 64, a + BitVec.ofNat 64 0 = a := fun a => BitVec.add_zero a
    simpa only [Elf64Phdr.addr, hz] using heq

/-- The segments in two pages: the image is built. -/
theorem image_built_two_pages :
    ∃ s', (elf64LoadFile fileAddr).exec (elfExec plainEnv)
        (fileState (twoSegments 0x400000#64 0x401000#64)) =
        some (entryPoint (pageBytes (twoSegments 0x400000#64 0x401000#64)), s') ∧
      Built s' (pageBytes (twoSegments 0x400000#64 0x401000#64)) := by
  have hsegs : segments (pageBytes (twoSegments 0x400000#64 0x401000#64)) =
      [⟨1, 176, 0x400000#64, 1, 1⟩, ⟨1, 177, 0x401000#64, 1, 1⟩] := by decide +kernel
  obtain ⟨s', hrun, -, hbuilt⟩ := @image_built_iff _ fileAddr 184 _ plainEnv
    (fileState_loadable (twoSegments 0x400000#64 0x401000#64) (by decide))
    (twoSegments_file hsegs (by decide +kernel) (by decide +kernel) (by decide +kernel)
      (by decide) (by decide) (by decide))
    (exec_of_result (by decide +kernel)) (by decide +kernel)
  refine ⟨s', hrun, hbuilt ?_⟩
  rw [PagesApart, hsegs, List.pairwise_cons]
  refine ⟨fun q hq k hk hc => ?_, List.pairwise_singleton _ _⟩
  cases List.mem_singleton.mp hq
  have hk0 : k = 0 := Nat.lt_one_iff.mp hk
  subst hk0
  exact absurd hc (by decide +kernel)

/-- Two segments in one page, two disjoint bytes: the first is gone once the second is loaded. -/
theorem image_lost_in_page :
    ∃ (env : ElfEnv) (s : PageState) (hdr : BitVec 64) (len : Nat) (img : ByteMem),
      Loadable s hdr len img ∧ ExecFile img len ∧
      (∃ s', (elf64IsSupported hdr).exec (elfExec env) s = some (true, s')) ∧
      (elf64LoadFile hdr).Along (elfExec env) allocMeets s ∧
      ¬ ∃ s', (elf64LoadFile hdr).exec (elfExec env) s = some (entryPoint img, s') ∧ Built s' img := by
  have hsegs : segments (pageBytes (twoSegments 0x400000#64 0x400800#64)) =
      [⟨1, 176, 0x400000#64, 1, 1⟩, ⟨1, 177, 0x400800#64, 1, 1⟩] := by decide +kernel
  have hload := fileState_loadable (twoSegments 0x400000#64 0x400800#64) (show 184 ≤ 0x1000 by decide)
  have hfile : ExecFile (pageBytes (twoSegments 0x400000#64 0x400800#64)) 184 :=
    twoSegments_file hsegs (by decide +kernel) (by decide +kernel) (by decide +kernel)
      (by decide) (by decide) (by decide)
  have haccept : ∃ s', (elf64IsSupported fileAddr).exec (elfExec plainEnv)
      (fileState (twoSegments 0x400000#64 0x400800#64)) = some (true, s') :=
    exec_of_result (by decide +kernel)
  have hmeets : (elf64LoadFile fileAddr).Along (elfExec plainEnv) allocMeets
      (fileState (twoSegments 0x400000#64 0x400800#64)) := by decide +kernel
  refine ⟨plainEnv, _, fileAddr, 184, _, hload, hfile, haccept, hmeets, ?_⟩
  rintro ⟨s', hrun, hbuilt⟩
  obtain ⟨s₁, us, hrun₁, hinv⟩ := elf64LoadFile_exec hload hfile haccept hmeets
  cases Option.some.inj (hrun.symm.trans hrun₁)
  -- The byte 0xC3 of the first segment is now one of a cleared frame.
  have hset := hinv.settled
  rw [hsegs] at hset
  obtain ⟨f, -, hfree, hbyte⟩ := (hset.1 0 (by decide)).1
    ⟨_, List.mem_singleton.mpr rfl, by decide +kernel⟩
  have hzero : pageByte ((fileState (twoSegments 0x400000#64 0x400800#64)).mem f)
      (pageOffset (Elf64Phdr.addr ⟨1, 176, 0x400000#64, 1, 1⟩ 0)) = 0 := by
    rw [fileState_free _ hfree]
    decide
  have hb := hbuilt ⟨1, 176, 0x400000#64, 1, 1⟩ (by rw [hsegs]; exact List.mem_cons_self) 0 (by decide)
  rw [hbyte, hzero] at hb
  revert hb
  decide +kernel

end OS64.Elf
