import OS64.Elf.Load

/-!
# What `elf64_load_file` makes of an executable

The loader works through the program headers once. `Settled` says of the segments loaded
so far what each of their bytes is; a segment more (`LoadInv.segment`) keeps it, and at
the end of the loop it is about all of them. From there the image is complete just where
no page of a segment was taken again for a later one, or the frame that page got instead
happens to hold the right bytes.
-/

namespace OS64.Elf

open OS64.Lib OS64.Mm

/-! ## The state the loader starts from -/

/-- An address of the file. -/
def inFile (hdr : BitVec 64) (len : Nat) (a : BitVec 64) : Prop :=
  ∃ k, k < len ∧ a = hdr + BitVec.ofNat 64 k

/-- The task runs in the address space of `PML4`, and the file lies in memory of the kernel,
in frames that are taken and are no tables. -/
structure Loadable (s : PageState) (hdr : BitVec 64) (len : Nat) (img : ByteMem) : Prop where
  tree : PageTree s
  space : frameOf s.cr3 = s.root
  above : aboveWindow hdr
  fits : hdr.toNat + len ≤ 2 ^ 64
  file : FileAt s hdr len img
  frames : ∀ a f, inFile hdr len a → s.frameAt a = some f → ¬ s.free f ∧ s.noTable s.root f

/-- `alloc_pages_user` gets the frames it asks for, and those it makes tables of do no harm. -/
def allocMeets : ElfOp → PageState → Prop
  | .allocPagesUser addr size, s => (AnonCall.pages true addr size).meets s
  | _, _ => True

instance : (o : ElfOp) → (s : PageState) → Decidable (allocMeets o s)
  | .allocPagesUser addr size, s =>
    inferInstanceAs (Decidable (loopMeets createPageUser addr ((size.toNat + 0xFFF) / 0x1000) 0 s))
  | .load _, _ | .store _ _, _ | .kttyPuts _, _ | .undefined, _ | .call _, _ | .stop, _ =>
    .isTrue trivial

variable {s₀ s : PageState} {hdr : BitVec 64} {len : Nat} {img : ByteMem} {env : ElfEnv}
  {us : List (BitVec 64)}

theorem allocMeets_quiet (o : ElfOp) (h : Quiet s o s) : allocMeets o s := by
  rcases h with ⟨-, ⟨v, rfl, -⟩ | ⟨msg, rfl⟩⟩
  · trivial
  · trivial

namespace Loadable

theorem above_file (h : Loadable s hdr len img) (a : BitVec 64) (ha : inFile hdr len a) :
    aboveWindow a := by
  obtain ⟨k, hk, rfl⟩ := ha
  have habove := h.above
  have hfits := h.fits
  unfold aboveWindow at habove ⊢
  rw [BitVec.toNat_add, BitVec.toNat_ofNat]
  omega

theorem pages (h : Loadable s hdr len img) : UserPages s s (inFile hdr len) [] := by
  refine .start (anonInv_start h.tree) (fun u hu => absurd hu List.not_mem_nil) h.space ?_
  rintro a ⟨k, hk, rfl⟩
  have hbyte := h.file k hk
  rw [PageState.byteAt, Option.map_eq_some_iff] at hbyte
  obtain ⟨f, hf, -⟩ := hbyte
  obtain ⟨hfree, htable⟩ := h.frames _ f ⟨k, hk, rfl⟩ hf
  exact ⟨f, hf, hfree, htable, fun u hu => absurd hu List.not_mem_nil⟩

/-- The file stays where it is. -/
theorem fileAt (h : Loadable s₀ hdr len img) (hs : UserPages s₀ s (inFile hdr len) us) :
    FileAt s hdr len img :=
  fun k hk => (hs.kept_byte ⟨k, hk, rfl⟩).trans (h.file k hk)

end Loadable

/-! ## One segment -/

/-- A segment: its bytes are in place, the rest of its pages holds what the frames were left
with, and every other page is as it was. -/
theorem loadSegment_spec (hload : Loadable s₀ hdr len img) (h : UserPages s₀ s (inFile hdr len) us)
    {o : Nat} (hin : o + phdrSize ≤ len) (hp : (phdrAt img o).Fits len)
    (hmeets : (loadSegment hdr (hdr + BitVec.ofNat 64 o)).Along (elfExec env) allocMeets s) :
    ∃ s', (loadSegment hdr (hdr + BitVec.ofNat 64 o)).exec (elfExec env) s = some ((), s') ∧
      UserPages s₀ s' (inFile hdr len) ((phdrAt img o).pages ++ us) ∧
      (∀ k, k < (phdrAt img o).pMemsz.toNat →
        s'.byteAt ((phdrAt img o).addr k) = some ((phdrAt img o).byte img k)) ∧
      (∀ a, a.toNat < 2 ^ 47 → (phdrAt img o).covers a →
        (∀ k, k < (phdrAt img o).pMemsz.toNat → a ≠ (phdrAt img o).addr k) →
        LeftOver s₀ s' a) ∧
      (∀ a, a.toNat < 2 ^ 47 → ¬ (phdrAt img o).covers a →
        s'.frameAt a = s.frameAt a ∧ (InPages us a → s'.byteAt a = s.byteAt a)) := by
  generalize hpeq : phdrAt img o = p at hp ⊢
  -- The fields are read anew in every state the loader has got to.
  have hread : ∀ {us : List (BitVec 64)} {s : PageState}, UserPages s₀ s (inFile hdr len) us →
      PhdrReads env s (hdr + BitVec.ofNat 64 o) p := by
    intro us s hs
    rw [← hpeq]
    exact phdr_reads (hload.fileAt hs) hin
  unfold loadSegment at hmeets ⊢
  rw [(hread h).vaddr.exec_bind, (hread h).vaddr.exec_bind, (hread h).memsz.exec_bind]
  rw [(hread h).vaddr.along_bind _ allocMeets_quiet, (hread h).vaddr.along_bind _ allocMeets_quiet,
    (hread h).memsz.along_bind _ allocMeets_quiet, Prog.along_bind] at hmeets
  have hmeet : allocMeets (.allocPagesUser (pageBase p.pVaddr) p.span) s :=
    (Prog.along_perform _ _).mp hmeets.1
  have halloc : loopMeets createPageUser (pageBase p.pVaddr) ((p.span.toNat + 0xFFF) / 0x1000) 0 s :=
    hmeet
  obtain ⟨s₁, hrun₁, hs₁, hnew, hold⟩ := UserPages.allocLoop hload.above_file _ _ h hp.pages_off halloc
  have hmapped := Mapped.allocLoop _ _ h.anon.tree halloc
  rw [hrun₁] at hmapped
  have hexec₁ : (perform (.allocPagesUser (pageBase p.pVaddr) (p.pMemsz + pageTail p.pVaddr))).exec
      (elfExec env) s = some ((), s₁) := by
    refine (Prog.exec_perform _ _).trans ?_
    exact congrArg some hrun₁
  -- The whole segment lies in the pages just mapped.
  have hinp : ∀ k, k < p.pMemsz.toNat → InPages (p.pages ++ us) (p.addr k) := by
    intro k hk
    obtain ⟨u, hu, hpath⟩ := (hp.inPages_iff (hp.addr_low hk)).mpr (hp.covers_addr hk)
    exact ⟨u, List.mem_append_left _ hu, hpath⟩
  obtain ⟨s₂, hrun₂, hs₂, hzero⟩ := @memset_spec _ _ _ env p.pMemsz.toNat _ _ hs₁ hp.user hinp
  have hsizes := hp.sizes
  have huser := hp.user
  have hdata := hp.data
  have hsrc : ∀ k, k < p.pFilesz.toNat →
      inFile hdr len (hdr + p.pOffset + BitVec.ofNat 64 k) ∧
      s₀.byteAt (hdr + p.pOffset + BitVec.ofNat 64 k) = some (img (p.pOffset.toNat + k)) := by
    intro k hk
    have haddr : hdr + p.pOffset + BitVec.ofNat 64 k =
        hdr + BitVec.ofNat 64 (p.pOffset.toNat + k) := by
      rw [BitVec.ofNat_add, BitVec.ofNat_toNat, BitVec.setWidth_eq, BitVec.add_assoc]
    rw [haddr]
    exact ⟨⟨_, by omega, rfl⟩, hload.file _ (by omega)⟩
  obtain ⟨s₃, hrun₃, hs₃, hcopy⟩ : ∃ s₃, (memcpy p.pFilesz.toNat p.pVaddr (hdr + p.pOffset)).exec
      (elfExec env) s₂ = some ((), s₃) ∧ UserPages s₀ s₃ (inFile hdr len) (p.pages ++ us) ∧
      Wrote s₂ s₃ (p.pages ++ us) p.pVaddr p.pFilesz.toNat fun k => img (p.pOffset.toNat + k) :=
    memcpy_spec p.pFilesz.toNat hs₂ (by omega) (fun k hk => hinp k (by omega)) hsrc
  rw [Prog.exec_bind_some hexec₁, (hread hs₁).vaddr.exec_bind, (hread hs₁).memsz.exec_bind,
    Prog.exec_bind_some hrun₂, (hread hs₂).offset.exec_bind, (hread hs₂).filesz.exec_bind]
  refine ⟨s₃, hrun₃, hs₃, ?_, ?_, ?_⟩
  · intro k hk
    unfold Elf64Phdr.byte
    by_cases hfile : k < p.pFilesz.toNat
    · rw [if_pos hfile]
      exact hcopy.stored k hfile
    · rw [if_neg hfile]
      refine (hcopy.off _ (hp.addr_low hk) (hinp k hk) ?_).trans (hzero.stored k hk)
      intro j hj heq
      have hval := congrArg BitVec.toNat heq
      have hj' := hp.addr_toNat (k := j) (by omega)
      rw [hp.addr_toNat hk] at hval
      unfold Elf64Phdr.addr at hj'
      omega
  · intro a ha hcov hne
    have hina := (hp.inPages_iff ha).mpr hcov
    have hina' : InPages (p.pages ++ us) a :=
      hina.imp fun u hu => ⟨List.mem_append_left _ hu.1, hu.2⟩
    refine (hnew a (canonical_low ha) (low_not_window ha) hina).congr
      ((hcopy.frame a).trans (hzero.frame a)) ?_
    exact (hcopy.off a ha hina' fun k hk => hne k (by omega)).trans (hzero.off a ha hina' hne)
  · intro a ha hcov
    have hnot : ¬ InPages p.pages a := fun hh => hcov ((hp.inPages_iff ha).mp hh)
    have hframe := hmapped.frameAt h.space (low_not_window ha) hnot
    have hne : ∀ k, k < p.pMemsz.toNat → a ≠ p.addr k := by
      rintro k hk rfl
      exact hcov (hp.covers_addr hk)
    refine ⟨((hcopy.frame a).trans (hzero.frame a)).trans hframe, fun hina => ?_⟩
    have hina' : InPages (p.pages ++ us) a :=
      hina.imp fun u hu => ⟨List.mem_append_right _ hu.1, hu.2⟩
    rw [hcopy.off a ha hina' fun k hk => hne k (by omega), hzero.off a ha hina' hne,
      hold a (canonical_low ha) (low_not_window ha) hnot hina]

/-! ## The segments one after the other -/

/-- Each byte of a segment is as the file describes it, or, where a segment behind it covers
its page, what the frame of that page was left with. -/
def Settled (s₀ s : PageState) (img : ByteMem) : List Elf64Phdr → Prop
  | [] => True
  | p :: rest =>
    (∀ k, k < p.pMemsz.toNat →
      ((∃ q ∈ rest, q.covers (p.addr k)) → LeftOver s₀ s (p.addr k)) ∧
      ((∀ q ∈ rest, ¬ q.covers (p.addr k)) → s.byteAt (p.addr k) = some (p.byte img k))) ∧
    Settled s₀ s img rest

/-- The segments `done` are in memory, in the pages `us`. -/
structure LoadInv (s₀ s : PageState) (hdr : BitVec 64) (len : Nat) (img : ByteMem)
    (us : List (BitVec 64)) (done : List Elf64Phdr) : Prop where
  pages : UserPages s₀ s (inFile hdr len) us
  covered : ∀ p ∈ done, ∀ a, a.toNat < 2 ^ 47 → p.covers a → InPages us a
  settled : Settled s₀ s img done

/-- The bytes of the earlier segments after one more. -/
theorem settled_append {s' : PageState} {p : Elf64Phdr} (hp : p.Fits len)
    (hown : ∀ k, k < p.pMemsz.toNat → s'.byteAt (p.addr k) = some (p.byte img k))
    (hnew : ∀ a, a.toNat < 2 ^ 47 → p.covers a → (∀ k, k < p.pMemsz.toNat → a ≠ p.addr k) →
      LeftOver s₀ s' a)
    (hold : ∀ a, a.toNat < 2 ^ 47 → ¬ p.covers a →
      s'.frameAt a = s.frameAt a ∧ (InPages us a → s'.byteAt a = s.byteAt a)) :
    ∀ {done : List Elf64Phdr}, (∀ d ∈ done, d.Fits len) → (∀ d ∈ done, d.Apart p) →
      (∀ d ∈ done, ∀ a, a.toNat < 2 ^ 47 → d.covers a → InPages us a) → Settled s₀ s img done →
      Settled s₀ s' img (done ++ [p])
  | [], _, _, _, _ => by
    refine ⟨fun k hk => ⟨?_, fun _ => hown k hk⟩, trivial⟩
    rintro ⟨q, hq, -⟩
    cases hq
  | d :: rest, hfits, hapart, hcov, hset => by
    obtain ⟨hhead, htail⟩ := hset
    refine ⟨fun k hk => ?_, settled_append hp hown hnew hold
      (fun x hx => hfits x (List.mem_cons_of_mem _ hx))
      (fun x hx => hapart x (List.mem_cons_of_mem _ hx))
      (fun x hx => hcov x (List.mem_cons_of_mem _ hx)) htail⟩
    have hd := hfits d List.mem_cons_self
    have hlow := hd.addr_low hk
    by_cases hc : p.covers (d.addr k)
    · -- The page is taken again: the byte is not one of the new segment.
      refine ⟨fun _ => hnew _ hlow hc fun j hj => hapart d List.mem_cons_self k j hk hj, fun hno => ?_⟩
      exact absurd hc (hno p (List.mem_append_right _ List.mem_cons_self))
    · obtain ⟨hframe, hkeep⟩ := hold _ hlow hc
      have hbyte := hkeep (hcov d List.mem_cons_self _ hlow (hd.covers_addr hk))
      constructor
      · rintro ⟨q, hq, hqc⟩
        have hqrest : q ∈ rest := by
          rcases List.mem_append.mp hq with hq | hq
          · exact hq
          · cases List.mem_singleton.mp hq
            exact absurd hqc hc
        exact ((hhead k hk).1 ⟨q, hqrest, hqc⟩).congr hframe hbyte
      · intro hno
        rw [hbyte]
        exact (hhead k hk).2 fun q hq => hno q (List.mem_append_left _ hq)

/-- One more segment. -/
theorem LoadInv.segment {done : List Elf64Phdr} (hload : Loadable s₀ hdr len img)
    (h : LoadInv s₀ s hdr len img us done) {o : Nat} (hin : o + phdrSize ≤ len)
    (hp : (phdrAt img o).Fits len) (hfits : ∀ d ∈ done, d.Fits len)
    (hapart : ∀ d ∈ done, d.Apart (phdrAt img o))
    (hmeets : (loadSegment hdr (hdr + BitVec.ofNat 64 o)).Along (elfExec env) allocMeets s) :
    ∃ s', (loadSegment hdr (hdr + BitVec.ofNat 64 o)).exec (elfExec env) s = some ((), s') ∧
      LoadInv s₀ s' hdr len img ((phdrAt img o).pages ++ us) (done ++ [phdrAt img o]) := by
  obtain ⟨s', hrun, hpages, hown, hnew, hold⟩ := loadSegment_spec hload h.pages hin hp hmeets
  refine ⟨s', hrun, hpages, ?_, settled_append hp hown hnew hold hfits hapart h.covered h.settled⟩
  intro d hd a ha hc
  rcases List.mem_append.mp hd with hd | hd
  · exact (h.covered d hd a ha hc).imp fun u hu => ⟨List.mem_append_right _ hu.1, hu.2⟩
  · cases List.mem_singleton.mp hd
    exact ((hp.inPages_iff ha).mpr hc).imp fun u hu => ⟨List.mem_append_left _ hu.1, hu.2⟩

end OS64.Elf
