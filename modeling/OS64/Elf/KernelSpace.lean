import OS64.Elf.LoadExec

/-!
# Operations and the kernel half

What the loader does to the kernel half of the address space, operation by operation.
`keepsKernel` is what an operation is to do there: to store nothing and to leave every
translation alone. A store keeps it where its address is outside, the mapping of pages
where the pages are, and a load unless the heap has to be mapped for it. None of this is
looked at by the loader, so all of it is a condition on the addresses it is given
(`Needs`).

While the condition is met, the program keeps to its own pages and the file stays as it
is (`KernelInv`), so that the addresses to come are those in the file.
-/

namespace OS64.Elf

open OS64.Lib OS64.Mm

/-! ## What is to hold -/

/-- The operation stores nothing in the kernel half and changes no translation there. -/
structure keepsKernel (env : ElfEnv) (o : ElfOp) (s : PageState) : Prop where
  store : ∀ v b, o = .store v b → ¬ kernelHalf v
  translation : ∀ r, elfExec env o s = some r → ∀ v, kernelHalf v →
    r.2.translate r.2.root v = s.translate s.root v

/-- What the loader finds: the file in memory of the kernel, the window closed, the pages mapped
outside the kernel half each with a frame of its own, and no page of the kernel on a free frame. -/
structure LoaderState (env : ElfEnv) (s : PageState) (hdr : BitVec 64) (len : Nat) (img : ByteMem) :
    Prop where
  load : Loadable s hdr len img
  heap : aboveWindow env.kernelHeap
  slot : s.slot = 0
  user : ∃ us, UserPages s s (inFile hdr len) us ∧
    ∀ v f, ¬ kernelHalf v → s.mapsTo v f → InPages us v
  taken : ∀ v f, kernelHalf v → s.mapsTo v f → ¬ s.free f

/-- What a load that has kept out of the kernel half so far has left of that. -/
structure KernelInv (s₀ : PageState) (hdr : BitVec 64) (len : Nat) (s : PageState) : Prop where
  user : ∃ us, UserPages s₀ s (inFile hdr len) us ∧
    ∀ v f, ¬ kernelHalf v → s.mapsTo v f → InPages us v
  slot : s.slot = 0
  kernel : ∀ v, kernelHalf v → s.translate s.root v = s₀.translate s₀.root v

/-- What it takes for a part of the loader to leave the kernel half alone. -/
def Guarded {α : Type} (env : ElfEnv) (s₀ : PageState) (hdr : BitVec 64) (len : Nat) (p : ElfProg α)
    (T : Prop) (R : α → Prop) : Prop :=
  p.Needs (elfExec env) (KernelInv s₀ hdr len) allocMeets (keepsKernel env) T R

variable {env : ElfEnv} {s₀ s s' : PageState} {hdr : BitVec 64} {len : Nat} {img : ByteMem}
  {α β : Type}

theorem LoaderState.inv (h : LoaderState env s hdr len img) : KernelInv s hdr len s where
  user := h.user
  slot := h.slot
  kernel _ _ := rfl

namespace KernelInv

theorem space (h : KernelInv s₀ hdr len s) : frameOf s.cr3 = s.root := by
  obtain ⟨us, hus, -⟩ := h.user
  exact hus.space

theorem fileAt (hstate : LoaderState env s₀ hdr len img) (h : KernelInv s₀ hdr len s) :
    FileAt s hdr len img := by
  obtain ⟨us, hus, -⟩ := h.user
  exact hstate.load.fileAt hus

/-- An address of the kernel leads where it did. -/
theorem frameAt (hstate : LoaderState env s₀ hdr len img) (h : KernelInv s₀ hdr len s)
    {v : BitVec 64} (hv : kernelHalf v) : s.frameAt v = s₀.frameAt v := by
  apply frameAt_congr
  rw [h.space, hstate.load.space]
  exact h.kernel v hv

/-- A frame under an address of the kernel is taken. -/
theorem taken (hstate : LoaderState env s₀ hdr len img) (h : KernelInv s₀ hdr len s)
    {v : BitVec 64} (hv : kernelHalf v) {f : Frame} (hf : s.mapsTo v f) : ¬ s.free f := by
  obtain ⟨us, hus, -⟩ := h.user
  have hf₀ : s₀.mapsTo v f := by
    unfold PageState.mapsTo at hf ⊢
    rwa [h.kernel v hv] at hf
  exact fun hfree => hstate.taken v f hv hf₀ (hus.free f hfree).1

end KernelInv

/-! ## The operations -/

theorem keepsKernel_same {o : ElfOp} {r : o.Res} (hrun : elfExec env o s = some (r, s))
    (hstore : ∀ v b, o ≠ .store v b) : keepsKernel env o s where
  store v b ho := absurd ho (hstore v b)
  translation := by
    intro r' hr' v _
    rw [hrun] at hr'
    cases hr'
    rfl

theorem keepsKernel_quiet (o : ElfOp) (h : Quiet s o s) : keepsKernel env o s := by
  rcases h with ⟨-, ⟨v, rfl, hv⟩ | ⟨msg, rfl⟩⟩
  · obtain ⟨b, hb⟩ := Option.isSome_iff_exists.mp hv
    exact keepsKernel_same (r := b) (loadByte_mapped hb) (fun _ _ hh => by cases hh)
  · exact keepsKernel_same (r := ()) rfl (fun _ _ hh => by cases hh)

theorem ReadsTo.keepsKernel {p : ElfProg α} {a : α} (h : ReadsTo env s p a) :
    p.Along (elfExec env) (keepsKernel env) s := by
  refine h.along.mono ?_
  rintro o s' ⟨rfl, hq⟩
  exact keepsKernel_quiet o ⟨rfl, hq⟩

/-- A part that reads the file. -/
theorem guarded_reads (hstate : LoaderState env s₀ hdr len img) {p : ElfProg α} {T : Prop}
    {R : α → Prop} (hp : ∀ s, FileAt s hdr len img → ∃ a, ReadsTo env s p a ∧ R a) :
    Guarded env s₀ hdr len p T R := by
  refine Prog.Needs.still fun s hs => ?_
  obtain ⟨a, hreads, ha⟩ := hp s (hs.fileAt hstate)
  exact ⟨a, hreads.exec, hreads.keepsKernel, ha⟩

/-- What comes after it. -/
theorem Guarded.reads (hstate : LoaderState env s₀ hdr len img) {p : ElfProg α} {a : α}
    {f : α → ElfProg β} {T : Prop} {R : β → Prop}
    (hp : ∀ s, FileAt s hdr len img → ReadsTo env s p a) (hf : Guarded env s₀ hdr len (f a) T R) :
    Guarded env s₀ hdr len (p >>= f) T R :=
  Prog.Needs.after (fun s hs =>
    ⟨(hp s (hs.fileAt hstate)).exec, (hp s (hs.fileAt hstate)).keepsKernel⟩) hf

/-- An operation that leaves the state as it is. -/
theorem guarded_same {o : ElfOp} (hrun : ∀ s, ∃ r, elfExec env o s = some (r, s))
    (hstore : ∀ v b, o ≠ .store v b) {T : Prop} : Guarded env s₀ hdr len (perform o) T fun _ => True := by
  intro s hs _
  obtain ⟨r, hr⟩ := hrun s
  refine ⟨fun _ => (Prog.along_perform _ _).mpr (keepsKernel_same hr hstore), fun a s' _ h => ?_⟩
  have h' : elfExec env o s = some (a, s') := (Prog.exec_perform _ _).symm.trans h
  rw [hr] at h'
  cases h'
  exact ⟨hs, trivial⟩

theorem guarded_puts (msg : String) {T : Prop} :
    Guarded env s₀ hdr len (perform (.kttyPuts msg)) T fun _ => True :=
  guarded_same (fun _ => ⟨(), rfl⟩) (fun _ _ hh => by cases hh)

theorem guarded_undefined {T : Prop} :
    Guarded env s₀ hdr len (perform .undefined) T fun _ => True :=
  guarded_same (fun s => ⟨env.undefined s, rfl⟩) (fun _ _ hh => by cases hh)

/-- The end of the run. -/
theorem guarded_stop {T : Prop} {R : Unit → Prop} : Guarded env s₀ hdr len (perform .stop) T R := by
  intro s _ _
  have hnone : elfExec env .stop s = none := rfl
  refine ⟨fun _ => (Prog.along_perform _ _).mpr ⟨(fun _ _ hh => by cases hh), ?_⟩, fun a s' _ h => ?_⟩
  · intro r hr
    cases hnone.symm.trans hr
  · have h' : elfExec env .stop s = some (a, s') := (Prog.exec_perform _ _).symm.trans h
    cases hnone.symm.trans h'

/-- A load from the kernel half must not find its address unmapped. -/
theorem guarded_load (hstate : LoaderState env s₀ hdr len img) (v : BitVec 64) :
    Guarded env s₀ hdr len (perform (.load v)) (kernelHalf v → (s₀.frameAt v).isSome)
      fun _ => kernelHalf v → (s₀.frameAt v).isSome := by
  intro s hs _
  by_cases hmapped : (s.frameAt v).isSome
  · obtain ⟨f, hf⟩ := Option.isSome_iff_exists.mp hmapped
    have hload : elfExec env (.load v) s = some (pageByte (s.mem f) (pageOffset v), s) :=
      loadByte_mapped (byteAt_of_frame hf)
    have hkeep := keepsKernel_same hload fun _ _ hh => by cases hh
    refine ⟨fun _ => (Prog.along_perform _ _).mpr hkeep, fun b s' _ h => ?_⟩
    have h' : elfExec env (.load v) s = some (b, s') := (Prog.exec_perform _ _).symm.trans h
    cases hload.symm.trans h'
    exact ⟨hs, fun hv => by rw [← hs.frameAt hstate hv]; exact hmapped⟩
  · have hnone : s.frameAt v = none := Option.not_isSome_iff_eq_none.mp hmapped
    -- Such a load goes through only where it maps a page of the heap.
    have hgone : ∀ r, elfExec env (.load v) s = some r →
        kernelHalf v ∧ r.2.translate r.2.root v ≠ s.translate s.root v := by
      rintro ⟨b, s'⟩ hrun
      have hload : s.loadByte env.kernelHeap v = some (b, s') := hrun
      rw [PageState.loadByte, Option.bind_eq_some_iff] at hload
      obtain ⟨s₁, htouch, hbyte⟩ := hload
      obtain ⟨b', -, hb'⟩ := Option.map_eq_some_iff.mp hbyte
      cases hb'
      obtain ⟨hheap, hne⟩ := touch_unmapped hs.space hnone htouch
      exact ⟨aboveWindow_kernel (Nat.le_trans hstate.heap hheap), hne⟩
    constructor
    · intro ht
      refine (Prog.along_perform _ _).mpr ⟨(fun _ _ hh => by cases hh), fun r hr => ?_⟩
      have hv := (hgone r hr).1
      rw [← hs.frameAt hstate hv] at ht
      exact absurd (ht hv) hmapped
    · intro b s' hq h
      have h' : elfExec env (.load v) s = some (b, s') := (Prog.exec_perform _ _).symm.trans h
      obtain ⟨hv, hne⟩ := hgone _ h'
      exact absurd (((Prog.along_perform _ _).mp hq).translation _ h' v hv) hne

/-- A store must not go to the kernel half. -/
theorem guarded_store (hstate : LoaderState env s₀ hdr len img) (v : BitVec 64) (b : BitVec 8) :
    Guarded env s₀ hdr len (perform (.store v b)) (¬ kernelHalf v) fun _ => ¬ kernelHalf v := by
  intro s hs _
  -- Off the kernel half it goes to a page of the program, or it faults.
  have hoff : ¬ kernelHalf v → ∀ r, elfExec env (.store v b) s = some r →
      KernelInv s₀ hdr len r.2 ∧ r.2.translate r.2.root = s.translate s.root := by
    rintro hv ⟨u, s'⟩ hrun
    have hstore : (s.storeByte env.kernelHeap v b).map (fun s' => ((), s')) = some (u, s') := hrun
    obtain ⟨s₁, hbyte, hs₁⟩ := Option.map_eq_some_iff.mp hstore
    cases hs₁
    cases hf : s.frameAt v with
    | none =>
      rw [PageState.storeByte, Option.bind_eq_some_iff] at hbyte
      obtain ⟨s₂, htouch, -⟩ := hbyte
      have hheap := (touch_unmapped hs.space hf htouch).1
      exact absurd (aboveWindow_kernel (Nat.le_trans hstate.heap hheap)) hv
    | some f =>
      rw [storeByte_mapped hf] at hbyte
      cases hbyte
      obtain ⟨us, hus, hall⟩ := hs.user
      have hcan : canonical v = true := by
        by_contra hno
        rw [PageState.frameAt, if_neg hno] at hf
        cases hf
      have hin := hall v f hv ((frameAt_eq_some hs.space hcan).mp hf)
      have hwin : pagePath v ≠ windowPath := fun hh => hv (kernelHalf_window hh)
      obtain ⟨f', hf', htable, hus', -, -⟩ := hus.store hcan hwin hin b
      cases hf.symm.trans hf'
      have htrans : ∀ w, (s.storeAt f v b).translate s.root w = s.translate s.root w :=
        fun w => translate_storeAt htable w
      refine ⟨⟨⟨us, hus', fun w g hw hg => hall w g hw ?_⟩, ?_, fun w hw => ?_⟩, funext htrans⟩
      · unfold PageState.mapsTo at hg ⊢
        rwa [storeAt_root, htrans] at hg
      · -- The slot is in a table.
        have hkpt : s.kptFrame ≠ f := by
          rintro rfl
          exact htable kernelPath (by decide) hus.anon.tree.kernel
        exact (congrFun (storeAt_mem_other hkpt) 0).trans hs.slot
      · exact (htrans w).trans (hs.kernel w hw)
  constructor
  · intro hv
    refine (Prog.along_perform _ _).mpr ⟨?_, fun r hr w _ => congrFun (hoff hv r hr).2 w⟩
    rintro w c hh
    cases hh
    exact hv
  · intro a s' hq h
    have hv := ((Prog.along_perform _ _).mp hq).store v b rfl
    have h' : elfExec env (.store v b) s = some (a, s') := (Prog.exec_perform _ _).symm.trans h
    exact ⟨(hoff hv _ h').1, hv⟩

/-- No page of the kernel may be mapped. -/
theorem guarded_alloc (hstate : LoaderState env s₀ hdr len img) (addr size : BitVec 64) :
    Guarded env s₀ hdr len (perform (.allocPagesUser addr size))
      (∀ v ∈ loopPages addr ((size.toNat + 0xFFF) / 0x1000) 0, offKernel v)
      fun _ => ∀ v ∈ loopPages addr ((size.toNat + 0xFFF) / 0x1000) 0, offKernel v := by
  intro s hs hmeets
  have hmeet : allocMeets (.allocPagesUser addr size) s := (Prog.along_perform _ _).mp hmeets
  have hloop : loopMeets createPageUser addr ((size.toNat + 0xFFF) / 0x1000) 0 s := hmeet
  obtain ⟨us, hus, hall⟩ := hs.user
  have hmapped := Mapped.allocLoop _ _ hus.anon.tree hloop
  have hrun : elfExec env (.allocPagesUser addr size) s =
      some ((Mm.allocLoop createPageUser addr ((size.toNat + 0xFFF) / 0x1000) 0).run pageExec s) := rfl
  generalize hvs : loopPages addr ((size.toNat + 0xFFF) / 0x1000) 0 = vs at hmapped ⊢
  generalize hs₁ : (Mm.allocLoop createPageUser addr ((size.toNat + 0xFFF) / 0x1000) 0).run pageExec s =
    r₁ at hmapped hrun
  have hwindow : ∀ w, pagePath w = windowPath → r₁.2.translate r₁.2.root w = s.translate s.root w := by
    intro w hw
    rw [translate_window hmapped.tree hw, translate_window hus.anon.tree hw, hmapped.slot hs.slot,
      hs.slot]
  constructor
  · intro hoff
    refine (Prog.along_perform _ _).mpr ⟨(fun _ _ hh => by cases hh), fun r hr w hw => ?_⟩
    cases hrun.symm.trans hr
    by_cases hwin : pagePath w = windowPath
    · exact hwindow w hwin
    · refine hmapped.off w hwin ?_
      rintro ⟨v, hv, hpath⟩
      exact hwin (hpath.symm.trans (hoff v hv (kernelHalf_path hpath.symm hw)))
  · intro a s' hq h
    have hkeep := (Prog.along_perform _ _).mp hq
    have h' : elfExec env (.allocPagesUser addr size) s = some (a, s') :=
      (Prog.exec_perform _ _).symm.trans h
    have hr₁ : r₁ = (a, s') := Option.some.inj (hrun.symm.trans h')
    have hsame := hkeep.translation _ hrun
    -- A page of the kernel would have got a frame that was free.
    have hoff : ∀ v ∈ vs, offKernel v := by
      intro v hv hk
      by_contra hwin
      obtain ⟨f, hf, hfree⟩ := hmapped.new v hwin ⟨v, hv, rfl⟩
      unfold PageState.mapsTo at hf
      rw [hsame v hk] at hf
      exact hs.taken hstate hk hf hfree
    subst hr₁ hvs
    obtain ⟨s₂, hrun₂, hus', -, -⟩ := UserPages.allocLoop hstate.load.above_file _ _ hus hoff hloop
    cases hs₁.symm.trans hrun₂
    refine ⟨⟨⟨_, hus', fun w f hw hf => ?_⟩, hmapped.slot hs.slot, fun w hw => ?_⟩, hoff⟩
    · rw [inPages_append]
      by_cases hin : InPages (loopPages addr ((size.toNat + 0xFFF) / 0x1000) 0) w
      · exact Or.inl hin
      · have hwin : pagePath w ≠ windowPath := fun hh => hw (kernelHalf_window hh)
        exact Or.inr (hall w f hw ((hmapped.mapsTo hwin hin).mp hf))
    · exact (hsame w hw).trans (hs.kernel w hw)

end OS64.Elf
