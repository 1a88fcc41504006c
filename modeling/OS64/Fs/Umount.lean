import OS64.Fs.Mount
import Mathlib.Tactic.ByContra

/-!
# What an unmount leaves behind

Flags, pointers and volumes fit together when a directory is marked a mount point just
when its pointer leads to the root of a mounted volume: `MountsMatch`. A mount keeps this
unless it reads its superblock from the root directory of a mounted volume, whose
address then becomes the device pointer of a directory that is no mount point.
`vfs_umount` clears the pointer of a mount point and not its mark, so it never keeps it.
`callMeets` is what remains, and `mount_undone_iff` that it is exact at every call.
-/

namespace OS64.Fs

open OS64.Lib

/-- A directory is a mount point just when its pointer leads to a mounted root. -/
def MountsMatch (s : MountState) : Prop :=
  ∀ a n, s.heap a = some (.node n) → n.isDir = true → (n.isMount = true ↔ n.ptr ∈ s.mounted)

/-- An unmount of a mount point gives the node its flags and its pointer of before the
mount back. -/
def Undone (s : MountState) (c : MountCall) (s' : MountState) : Prop :=
  ∀ a, c = .umount a → ∀ n n', s.heap a = some (.node n) → n.isMount = true →
    s'.heap a = some (.node n') → (n'.flags, n'.ptr) = s.before a

/-- A mount is not of the root of a mounted volume, or is refused; an unmount is not of a
mount point. -/
def callMeets (s : MountState) : MountCall → Prop
  | .mount what whereNode probe => what ∈ s.mounted → whereNode = 0 ∨ probe = none ∨
      ∀ n, s.heap whereNode = some (.node n) → n.isDir = false ∨ n.isMount = true
  | .umount a => ∀ n, s.heap a = some (.node n) → n.isDir = false ∨ n.isMount = false

/-- Plain nodes whose pointers lead to something or nowhere. -/
structure MountStart (s : MountState) : Prop where
  plain : PlainHeap s.heap
  ptr : ∀ a n, s.heap a = some (.node n) → n.ptr = 0 ∨ s.heap n.ptr ≠ none
  mounted : s.mounted = []

/-- What the calls that meet the condition keep. -/
structure MatchInv (s : MountState) : Prop where
  null : s.heap 0 = none
  dir : ∀ a n, s.heap a = some (.node n) → n.isMount = true → n.isDir = true
  ptr : ∀ a n, s.heap a = some (.node n) → n.ptr = 0 ∨ s.heap n.ptr ≠ none
  live : ∀ v ∈ s.mounted, s.heap v ≠ none
  fits : MountsMatch s

theorem mountStart_inv {s : MountState} (h : MountStart s) : MatchInv s := by
  refine ⟨h.plain.null, ?_, h.ptr, ?_, ?_⟩
  · intro a n hn hm
    rw [h.plain.plain a n hn] at hm
    cases hm
  · intro v hv
    rw [h.mounted] at hv
    cases hv
  · intro a n hn hd
    rw [h.mounted, h.plain.plain a n hn]
    simp

section Step

variable {s : MountState} {what whereNode super root : Addr} {n : VfsNode Addr Addr} {h' : Heap}
  (before : Addr → BitVec 32 × Addr)

/-- A mount that succeeds leaves a heap where nothing went away. -/
theorem MountEffect.kept (heff : MountEffect s.heap h' what whereNode super root n) {a : Addr}
    (ha : s.heap a ≠ none) (hs : s.heap super = none) (hr : s.heap root = none) : h' a ≠ none := by
  by_cases haw : a = whereNode
  · rw [haw, heff.at_where]
    exact Option.some_ne_none _
  rw [heff.others a haw (fun heq => ha (heq ▸ hr)) (fun heq => ha (heq ▸ hs))]
  exact ha

/-- A successful mount keeps the match just when it does not read a mounted root. -/
theorem mounted_inv_iff (hinv : MatchInv s) (hwhat : liveOrNull s.heap what)
    (hfresh : freshProbe s.heap (some (super, root))) (hn : s.heap whereNode = some (.node n))
    (heff : MountEffect s.heap h' what whereNode super root n) :
    (what ∉ s.mounted → MatchInv ⟨h', root :: s.mounted, before⟩) ∧
    (what ∈ s.mounted → ¬ MountsMatch ⟨h', root :: s.mounted, before⟩) := by
  obtain ⟨hs0, hr0, hsr, hs, hr⟩ := hfresh _ rfl
  have hlive : s.heap what ≠ none := by
    obtain ⟨m, hm⟩ := hwhat.resolve_left heff.what_nonnull
    rw [hm]
    exact Option.some_ne_none _
  constructor
  · intro hnot
    refine ⟨?_, ?_, ?_, ?_, ?_⟩
    · show h' 0 = none
      rw [heff.others 0 (Ne.symm (node_nonnull hinv.null hn)) (Ne.symm hr0) (Ne.symm hs0)]
      exact hinv.null
    · intro a m ha hm
      rcases heff.node_cases ha with ⟨-, rfl⟩ | ⟨-, rfl⟩ | ⟨-, -, -, ha₀⟩
      · rw [mountOn_isDir]
        exact heff.dir
      · exact ext2Root_isDir _ _
      · exact hinv.dir a m ha₀ hm
    · intro a m ha
      rcases heff.node_cases ha with ⟨-, rfl⟩ | ⟨-, rfl⟩ | ⟨-, -, -, ha₀⟩
      · refine Or.inr ?_
        show h' root ≠ none
        rw [heff.at_root]
        exact Option.some_ne_none _
      · exact Or.inr (heff.kept hlive hs hr)
      · rcases hinv.ptr a m ha₀ with h0 | hp
        · exact Or.inl h0
        · exact Or.inr (heff.kept hp hs hr)
    · intro v hv
      rcases List.mem_cons.mp hv with rfl | hv
      · show h' v ≠ none
        rw [heff.at_root]
        exact Option.some_ne_none _
      · exact heff.kept (hinv.live v hv) hs hr
    · intro a m ha hd
      show m.isMount = true ↔ m.ptr ∈ root :: s.mounted
      rcases heff.node_cases ha with ⟨-, rfl⟩ | ⟨-, rfl⟩ | ⟨-, -, -, ha₀⟩
      · rw [mountOn_isMount]
        exact iff_of_true rfl List.mem_cons_self
      · -- the new root points to its device
        rw [ext2Root_isMount]
        refine iff_of_false Bool.noConfusion fun hmem => ?_
        rcases List.mem_cons.mp hmem with heq | hmem
        · change what = root at heq
          rw [heq] at hlive
          exact hlive hr
        · exact hnot hmem
      · rw [hinv.fits a m ha₀ hd, List.mem_cons]
        refine ⟨Or.inr, fun hmem => hmem.resolve_left fun heq => ?_⟩
        rcases hinv.ptr a m ha₀ with h0 | hp
        · exact hr0 (heq.symm.trans h0)
        · exact hp (heq ▸ hr)
  · intro hmem hfits
    have hroot := hfits root _ heff.at_root (ext2Root_isDir _ _)
    rw [ext2Root_isMount] at hroot
    exact Bool.noConfusion (hroot.mpr (List.mem_cons_of_mem _ hmem))

/-- An unmount of a mount point leaves a mark without a volume. -/
theorem umounted_not_fits (hinv : MatchInv s) (hd : n.isDir = true) (hm : n.isMount = true)
    {a : Addr} (hn : h' a = some (.node { n with ptr := 0 })) {mounted : List Addr}
    (hsub : ∀ v ∈ mounted, v ∈ s.mounted) : ¬ MountsMatch ⟨h', mounted, before⟩ := by
  intro hfits
  exact hinv.live 0 (hsub 0 ((hfits a _ hn hd).mp hm)) hinv.null

end Step

/-- What `vfs_fini_fs` leaves of the nodes is as it was. -/
theorem vfsFiniFs_node {h h₁ : Heap} {p a : Addr} {res : Except Errno Unit}
    {n : VfsNode Addr Addr} (hfini : vfsFiniFs h p = .ok (res, h₁))
    (hn : h₁ a = some (.node n)) : h a = some (.node n) := by
  have hkept : ∀ {g : Heap} {b : Addr}, g.kfree b a = some (.node n) → g a = some (.node n) := by
    intro g b hg
    by_cases hab : a = b
    · rw [hab, heap_kfree_same] at hg
      cases hg
    · rw [heap_kfree_other _ hab] at hg
      exact hg
  unfold vfsFiniFs at hfini
  by_cases h0 : p = 0
  · rw [if_pos h0] at hfini
    cases hfini
    exact hn
  rw [if_neg h0] at hfini
  cases hr : h.node p with
  | error stop =>
    rw [hr] at hfini
    cases hfini
  | ok r =>
    rw [hr] at hfini
    simp only [bind, Except.bind] at hfini
    split at hfini
    · cases hfini
      exact hkept (hkept hn)
    · cases hfini
      exact hkept hn
    · cases hfini
      exact hn

/-- `vfs_umount` of a mount point, when it comes back, has cleared the pointer only. -/
theorem vfsUmount_mark {h h' : Heap} {a : Addr} {res : Except Errno Unit}
    {n : VfsNode Addr Addr} (hn : h a = some (.node n)) (ha : a ≠ 0) (hd : n.isDir = true)
    (hm : n.isMount = true) (hcall : vfsUmount h a = .ok (res, h')) :
    h' a = some (.node { n with ptr := 0 }) := by
  unfold vfsUmount at hcall
  rw [if_neg ha, heap_node_ok.mpr hn] at hcall
  simp only [bind, Except.bind, hd, hm, Bool.not_true, Bool.false_eq_true, if_false] at hcall
  cases hfini : vfsFiniFs h n.ptr with
  | error stop =>
    rw [hfini] at hcall
    cases hcall
  | ok out =>
    obtain ⟨res₁, h₁⟩ := out
    rw [hfini] at hcall
    cases hn₁ : h₁.node a with
    | error stop =>
      simp only [hn₁] at hcall
      cases hcall
    | ok m =>
      simp only [hn₁] at hcall
      cases hcall
      have hm₁ := vfsFiniFs_node hfini (heap_node_ok.mp hn₁)
      rw [hn] at hm₁
      cases hm₁
      exact heap_set_same _ _ _

/-! ## One call -/

theorem vfsUmount_null (h : Heap) : vfsUmount h 0 = .ok (.error .einval, h) := if_pos rfl

theorem vfsMount_null (h : Heap) (what : Addr) (probe : Option (Addr × Addr)) :
    vfsMount h what 0 probe = .ok (.error .einval, h) := if_pos (Or.inr rfl)

/-- A mount is no unmount. -/
theorem undone_mount (s s' : MountState) (what whereNode : Addr) (probe : Option (Addr × Addr)) :
    Undone s (.mount what whereNode probe) s' := by
  intro a heq
  cases heq

/-- A call that meets the condition keeps the invariant, and any other breaks the match. -/
def CallSettled (s : MountState) (c : MountCall) (s' : MountState) : Prop :=
  (callMeets s c → MatchInv s' ∧ Undone s c s') ∧ (¬ callMeets s c → ¬ MountsMatch s')

section Calls

variable {s : MountState} {n : VfsNode Addr Addr} {heap : Heap}

theorem mounted_settled {what whereNode super root : Addr} (hinv : MatchInv s)
    (hwhat : liveOrNull s.heap what) (hfresh : freshProbe s.heap (some (super, root)))
    (hn : s.heap whereNode = some (.node n))
    (h : vfsMount s.heap what whereNode (some (super, root)) = .ok (.ok (), heap)) :
    CallSettled s (.mount what whereNode (some (super, root)))
      ⟨heap, root :: s.mounted, fun a => if a = whereNode then (n.flags, n.ptr) else s.before a⟩ := by
  rcases vfsMount_eq what hn hinv.null hfresh with
    ⟨e, hret, -⟩ | ⟨super', root', h₁, hprobe, hret, heff⟩
  · rw [hret] at h
    cases h
  rw [hret] at h
  cases h
  cases hprobe
  obtain ⟨hkeeps, hbreaks⟩ := mounted_inv_iff (fun a =>
    if a = whereNode then (n.flags, n.ptr) else s.before a) hinv hwhat hfresh hn heff
  constructor
  · intro hmeets
    -- the condition on a mounted root is a refusal, and the call was not refused
    refine ⟨hkeeps fun hmem => ?_, undone_mount _ _ _ _ _⟩
    rcases hmeets hmem with h0 | hno | hrefused
    · exact node_nonnull hinv.null hn h0
    · cases hno
    · rcases hrefused n hn with hd | hm
      · rw [heff.dir] at hd
        cases hd
      · rw [heff.free] at hm
        cases hm
  · intro hnot
    refine hbreaks ?_
    by_contra hmem
    exact hnot fun hmem' => absurd hmem' hmem

/-- A mount that fails meets the condition: every failure is one of its cases. -/
theorem mountFailed_settled {what whereNode : Addr} {probe : Option (Addr × Addr)} {e : Errno}
    (hinv : MatchInv s) (hwhere : liveOrNull s.heap whereNode) (hfresh : freshProbe s.heap probe)
    (h : vfsMount s.heap what whereNode probe = .ok (.error e, heap)) :
    CallSettled s (.mount what whereNode probe) { s with heap := heap } := by
  rcases hwhere with rfl | ⟨n, hn⟩
  · rw [vfsMount_null] at h
    cases h
    exact ⟨fun _ => ⟨hinv, undone_mount _ _ _ _ _⟩, fun hnot => absurd (fun _ => Or.inl rfl) hnot⟩
  rcases vfsMount_eq what hn hinv.null hfresh with
    ⟨e', hret, hwhy⟩ | ⟨super, root, h₁, -, hret, -⟩
  · rw [hret] at h
    cases h
    refine ⟨fun _ => ⟨hinv, undone_mount _ _ _ _ _⟩, fun hnot => absurd ?_ hnot⟩
    intro hmem
    rcases hwhy with h0 | hd | hm | hprobe
    · exact absurd hinv.null (hinv.live 0 (h0 ▸ hmem))
    · refine Or.inr (Or.inr fun m hm' => Or.inl ?_)
      rw [hn] at hm'
      cases hm'
      exact hd
    · refine Or.inr (Or.inr fun m hm' => Or.inr ?_)
      rw [hn] at hm'
      cases hm'
      exact hm
    · exact Or.inr (Or.inl hprobe)
  · rw [hret] at h
    cases h

/-- An unmount of a mount point does not meet the condition, whatever it returns. -/
theorem umountPoint_settled {a : Addr} {res : Except Errno Unit} {mounted : List Addr}
    (hinv : MatchInv s) (hn : s.heap a = some (.node n))
    (hmount : n.isDir = true ∧ n.isMount = true) (h : vfsUmount s.heap a = .ok (res, heap))
    (hsub : ∀ v ∈ mounted, v ∈ s.mounted) :
    CallSettled s (.umount a) ⟨heap, mounted, s.before⟩ := by
  have ha := node_nonnull hinv.null hn
  constructor
  · intro hmeets
    rcases hmeets n hn with hd | hm
    · rw [hmount.1] at hd
      cases hd
    · rw [hmount.2] at hm
      cases hm
  · intro _
    exact umounted_not_fits _ hinv hmount.1 hmount.2 (vfsUmount_mark hn ha hmount.1 hmount.2 h) hsub

/-- An unmount of the null pointer, or of a node that is no mount point, changes nothing. -/
theorem umountRefused_settled {a : Addr} (hinv : MatchInv s)
    (hnone : ∀ m, s.heap a = some (.node m) → m.isDir = false ∨ m.isMount = false) :
    CallSettled s (.umount a) s := by
  refine ⟨fun _ => ⟨hinv, ?_⟩, fun hnot => absurd hnone hnot⟩
  intro b heq m m' hm hmm
  cases heq
  rcases hnone m hm with hd | hm'
  · rw [hinv.dir a m hm hmm] at hd
    cases hd
  · rw [hmm] at hm'
    cases hm'

end Calls

theorem mountStep_meets {s s' : MountState} {c : MountCall} (hinv : MatchInv s)
    (hstep : MountStep s c s') : CallSettled s c s' := by
  cases hstep with
  | mounted what whereNode super root n heap hwhat hfresh hn h =>
    exact mounted_settled hinv hwhat hfresh hn h
  | mountFailed what whereNode probe e heap hwhat hwhere hfresh h =>
    exact mountFailed_settled hinv hwhere hfresh h
  | umounted node n heap hn h =>
    have hmount : n.isDir = true ∧ n.isMount = true := by
      by_contra hnot
      obtain ⟨e, hret⟩ := vfsUmount_refused hn (node_nonnull hinv.null hn) (not_mount_point hnot)
      rw [hret] at h
      cases h
    exact umountPoint_settled hinv hn hmount h fun v hv => List.mem_of_mem_erase hv
  | umountFailed node e heap hnode h =>
    rcases hnode with rfl | ⟨n, hn⟩
    · rw [vfsUmount_null] at h
      cases h
      refine umountRefused_settled hinv fun m hm => ?_
      rw [hinv.null] at hm
      cases hm
    by_cases hmount : n.isDir = true ∧ n.isMount = true
    · exact umountPoint_settled hinv hn hmount h fun v hv => hv
    · have hno := not_mount_point hmount
      obtain ⟨e', hret⟩ := vfsUmount_refused hn (node_nonnull hinv.null hn) hno
      rw [hret] at h
      cases h
      refine umountRefused_settled hinv fun m hm => ?_
      rw [hn] at hm
      cases hm
      exact hno

/-! ## Runs -/

/-- In every run whose calls all meet the condition the marks match the mounted volumes,
and at every further call they do so, with what is unmounted restored, just when that
call meets it too. -/
theorem mount_undone_iff {s₀ s : MountState} (hstart : MountStart s₀)
    (hrun : Relation.ReflTransGen (fun s s' => ∃ c, callMeets s c ∧ MountStep s c s') s₀ s) :
    MountsMatch s ∧
    ∀ c s', MountStep s c s' → (MountsMatch s' ∧ Undone s c s' ↔ callMeets s c) := by
  have hinv : MatchInv s := run_invariant MatchInv
    (fun s s' hinv ⟨c, hmeets, hstep⟩ => ((mountStep_meets hinv hstep).1 hmeets).1) hrun
    (mountStart_inv hstart)
  refine ⟨hinv.fits, fun c s' hstep => ?_⟩
  obtain ⟨hkeeps, hbreaks⟩ := mountStep_meets hinv hstep
  constructor
  · intro hgood
    by_contra hnot
    exact hbreaks hnot hgood.1
  · intro hmeets
    obtain ⟨hinv', hundone⟩ := hkeeps hmeets
    exact ⟨hinv'.fits, hundone⟩

theorem bareNodes_start : MountStart bareNodes :=
  ⟨bareNodes_plain, fun _ _ hn => Or.inl (bareNodes_node hn).2, rfl⟩

/-- After the disk is mounted on the directory. -/
theorem mount_undone_mounted :
    MountsMatch mountedNodes ∧
    ∀ c s', MountStep mountedNodes c s' →
      (MountsMatch s' ∧ Undone mountedNodes c s' ↔ callMeets mountedNodes c) := by
  have hmeets : callMeets bareNodes (.mount 0x1000 0x2000 (some (0x3000, 0x4000))) := by
    intro hmem
    cases hmem
  exact mount_undone_iff bareNodes_start (.single ⟨_, hmeets, mountedNodes_step⟩)

/-- The disk unmounted again: the directory is still marked, its pointer is null. -/
theorem umount_keeps_mark :
    ∃ s s', Relation.ReflTransGen (fun s s' => ∃ c, MountStep s c s') bareNodes s ∧
      MountStep s (.umount 0x2000) s' ∧ ¬ MountsMatch s' ∧ ¬ Undone s (.umount 0x2000) s' := by
  have hnode : mountedNodes.heap 0x2000 =
      some (.node (VfsNode.mountOn ⟨[], 0, vfsDirectory, 0, 0, 0, 0, 0, .null, 0⟩ 0x4000)) := rfl
  have hroot : mountedNodes.heap 0x4000 = some (.node (ext2Root 0x3000 0x1000)) := rfl
  obtain ⟨h', hret, heff⟩ := (vfsUmount_eq hnode (by decide) rfl rfl).2 _ (by decide) hroot rfl
    (by decide) (by decide)
  have hd : (VfsNode.mountOn (ρ := Addr) (δ := Addr)
      ⟨[], 0, vfsDirectory, 0, 0, 0, 0, 0, .null, 0⟩ 0x4000).isDir = true := rfl
  refine ⟨mountedNodes, _, .single ⟨_, mountedNodes_step⟩, .umounted _ _ _ hnode hret, ?_, ?_⟩
  · intro hfits
    have hmark : (0 : Addr) ∈ ([0x4000] : List Addr).erase 0x4000 :=
      (hfits 0x2000 _ heff.at_node hd).mp rfl
    exact absurd hmark (by decide)
  · intro hundone
    have hback : vfsDirectory ||| vfsMountpoint = vfsDirectory :=
      congrArg Prod.fst (hundone 0x2000 rfl _ _ hnode rfl heff.at_node)
    exact absurd hback (by decide)

end OS64.Fs
