import OS64.Fs.Discovery

/-!
# Names of devices

The name of a partition is the name of the node it is on and a digit, so the names of the
entries are paths, and no two are the same. None is as long as `MAXNAMLEN`, since entry `k` is at
most `k` digits longer than the name of the disk, and so `devfs_finddir`, which compares
`MAXNAMLEN` characters and takes the first match, finds an entry by its name.
-/

namespace OS64.Fs

open OS64.Lib (ByteMem)

/-- The disk of the kernel, and that of the hosted build. -/
inductive Disk
  | ata
  | initrd (p len : BitVec 64)

/-- Its node. -/
def Disk.node : Disk → DevNode
  | .ata => ataInit
  | .initrd p len => initrdInit p len

/-- The disk is made, and devfs, and the disk is added. -/
def addDisk (read : DeviceRead) (disk : Disk) (fuel : Nat) : Exec Devfs := do
  let (main, s) := (⟨[], fun _ => none, 0⟩ : Devfs).alloc disk.node
  let (_, s) ← devfsAdd read fuel (devfsInit s).2 main
  .ok s

/-- The disk and the terminal are added, as in `fs_init`. Between the two, other nodes are handed
out: the root directory, and the root of what is mounted on it. -/
def addDevices (read : DeviceRead) (disk : Disk) (between : List DevNode) (fuel : Nat) :
    Exec Devfs := do
  let s ← addDisk read disk fuel
  let (tty, s) := { s with heap := s.heap ++ between }.alloc ttyInit
  let (_, s) ← devfsAdd read fuel s tty
  .ok s

/-! ## Looking up a name -/

/-- Every entry has a node, its name is shorter than `MAXNAMLEN`, and no two names are the same. -/
structure NamesOk (s : Devfs) : Prop where
  short : ∀ k, k < s.nodCnt → ∃ n, s.entry k = some n ∧ n.name.length < maxNamLen
  distinct : ∀ k k' n n', k < k' → k' < s.nodCnt → s.entry k = some n → s.entry k' = some n' →
    n.name ≠ n'.name

theorem strncmpSame_iff {n : Nat} {s t : List (BitVec 8)} (hs : s.length < n) (ht : t.length < n) :
    strncmpSame n s t = true ↔ s = t := by
  unfold strncmpSame
  rw [List.take_of_length_le (Nat.le_of_lt hs), List.take_of_length_le (Nat.le_of_lt ht)]
  exact beq_iff_eq

/-- The loop passes by the entries with other names, and stops at the one with this name. -/
theorem devfsFinddirLoop_finds {s : Devfs} (h : NamesOk s) {k v : Nat} {n : DevNode}
    (hk : k < s.nodCnt) (hv : s.nodes k = some v) (hn : s.heap[v]? = some n) :
    ∀ {left i : Nat}, i ≤ k → k < i + left →
      devfsFinddirLoop s n.name left i = .ok (.ok (some v)) := by
  have hentry : s.entry k = some n := Option.bind_eq_some_iff.mpr ⟨v, hv, hn⟩
  obtain ⟨n', hn', hlen⟩ := h.short k hk
  cases hentry.symm.trans hn'
  intro left
  induction left with
  | zero =>
    intro i hi hleft
    omega
  | succ left ih =>
    intro i hi hleft
    obtain ⟨e, he, helen⟩ := h.short i (Nat.lt_of_le_of_lt hi hk)
    obtain ⟨u, hu, hnode⟩ := Option.bind_eq_some_iff.mp he
    rw [devfsFinddirLoop]
    simp only [hu]
    rw [Devfs.node_eq hnode]
    show (if strncmpSame maxNamLen n.name e.name then _ else _) = _
    by_cases hik : i = k
    · rw [hik, hv] at hu
      cases hu
      cases hn.symm.trans hnode
      rw [if_pos ((strncmpSame_iff hlen hlen).mpr rfl)]
    · have hne : e.name ≠ n.name := h.distinct i k e n (by omega) hk he hentry
      rw [if_neg fun hsame => hne ((strncmpSame_iff hlen helen).mp hsame).symm]
      exact ih (by omega) (by omega)

theorem devfsFinddir_finds {s : Devfs} (h : NamesOk s) {k v : Nat} {n : DevNode}
    (hk : k < s.nodCnt) (hv : s.nodes k = some v) (hn : s.heap[v]? = some n) :
    devfsFinddir s n.name = .ok (.ok (some v)) :=
  devfsFinddirLoop_finds h hk hv hn (Nat.zero_le _) (by omega)

/-! ## The names -/

section Names

variable {s s' : Devfs} {v : Nat}

/-- Each level of partitions adds one character. -/
theorem name_length_le (h : Added s v s') {m : DevNode} (hm : s.heap[v]? = some m) :
    ∀ (k : Nat) {n : DevNode}, s.nodCnt ≤ k → k < s'.nodCnt → s'.entry k = some n →
      n.name.length + s.nodCnt ≤ m.name.length + k := by
  intro k
  induction k using Nat.strongRecOn with
  | ind k ih =>
    intro n hk hk' hn
    rcases h.order k hk hk' with ⟨hfirst, hself⟩ | ⟨k', p, hk₁, hk₂, hp, hc⟩
    · have hnode : s'.entry k = some m :=
        Option.bind_eq_some_iff.mpr ⟨v, hself, h.toGrown.node_kept hm⟩
      cases hnode.symm.trans hn
      omega
    · obtain ⟨n', e, d, hn', -, he, hname⟩ := hc
      cases hn.symm.trans hn'
      have hparent := ih k' hk₂ hk₁ (Nat.lt_trans hk₂ hk')
        (Option.bind_eq_some_iff.mpr ⟨p, hp, he⟩)
      rw [hname, List.length_append, List.length_singleton]
      omega

/-- The names behind the first call on an empty table. -/
theorem namesOk_added (h : Added s v s') (hempty : s.nodCnt = 0) {m : DevNode}
    (hm : s.heap[v]? = some m) (hshort : m.name.length + maxNodes ≤ maxNamLen) : NamesOk s' where
  short k hk := by
    obtain ⟨-, n, -, hn, -⟩ := h.names k (by omega) hk
    have hlen := name_length_le h hm k (by omega) hk hn
    have hbound := h.bound
    exact ⟨n, hn, by omega⟩
  distinct k k' n n' hlt hk' hn hn' := h.distinct k k' n n' (by omega) hlt hk' hn hn'

/-- An entry is added whose name no other one has. -/
theorem namesOk_enter (h : NamesOk s) {n : DevNode} (hn : s.heap[v]? = some n)
    (hshort : n.name.length < maxNamLen)
    (hnew : ∀ k e, k < s.nodCnt → s.entry k = some e → e.name ≠ n.name) :
    NamesOk (s.enter v) := by
  have hlast : (s.enter v).entry s.nodCnt = some n :=
    Option.bind_eq_some_iff.mpr ⟨v, enter_entry v, hn⟩
  have hold : ∀ k, k < s.nodCnt → (s.enter v).entry k = s.entry k := by
    intro k hk
    unfold Devfs.entry
    rw [show (s.enter v).nodes k = s.nodes k from if_neg (Nat.ne_of_lt hk)]
    rfl
  constructor
  · intro k hk
    rcases Nat.lt_succ_iff_lt_or_eq.mp hk with hlt | heq
    · rw [hold k hlt]
      exact h.short k hlt
    · exact ⟨n, heq ▸ hlast, hshort⟩
  · intro k k' e e' hlt hk' he he'
    rcases Nat.lt_succ_iff_lt_or_eq.mp hk' with hlt' | heq
    · rw [hold k (Nat.lt_trans hlt hlt')] at he
      rw [hold k' hlt'] at he'
      exact h.distinct k k' e e' hlt hlt' he he'
    · rw [heq] at hlt he'
      cases hlast.symm.trans he'
      rw [hold k hlt] at he
      exact hnew k e hlt he

/-- Nodes that are handed out change no entry. -/
theorem namesOk_alloc (h : NamesOk s) (more : List DevNode) :
    NamesOk { s with heap := s.heap ++ more } := by
  have hsame : ∀ k n, s.entry k = some n →
      ({ s with heap := s.heap ++ more } : Devfs).entry k = some n := by
    intro k n hn
    obtain ⟨v, hv, hnode⟩ := Option.bind_eq_some_iff.mp hn
    refine Option.bind_eq_some_iff.mpr ⟨v, hv, ?_⟩
    show (s.heap ++ more)[v]? = some n
    rw [List.getElem?_append_left (List.getElem?_eq_some_iff.mp hnode).1]
    exact hnode
  constructor
  · intro k hk
    obtain ⟨n, hn, hlen⟩ := h.short k hk
    exact ⟨n, hsame k n hn, hlen⟩
  · intro k k' n n' hlt hk' hn hn'
    obtain ⟨e, he, -⟩ := h.short k (Nat.lt_trans hlt hk')
    obtain ⟨e', he', -⟩ := h.short k' hk'
    cases (hsame k e he).symm.trans hn
    cases (hsame k' e' he').symm.trans hn'
    exact h.distinct k k' n n' hlt hk' he he'

end Names

/-! ## The two calls -/

/-- devfs, with the disk and nothing else made. -/
def bareDisk (disk : Disk) : Devfs := (devfsInit ⟨[disk.node], fun _ => none, 0⟩).2

theorem diskNode_ptr (disk : Disk) : disk.node.ptr = none := by
  cases disk with
  | ata => rfl
  | initrd p len => rfl

theorem bareDisk_reach (read : DeviceRead) (disk : Disk) : DevfsReach read (bareDisk disk) :=
  .init _ fun n hn => by
    rw [List.mem_singleton.mp hn]
    exact diskNode_ptr disk

/-- A call that ends ends with more fuel too. -/
theorem addDisk_of_ok {read : DeviceRead} {disk : Disk} {fuel : Nat} {s' : Devfs}
    (h : addDisk read disk fuel = .ok s') : Returns (addDisk read disk) s' ∧
      ∃ r, Returns (fun fuel => devfsAdd read fuel (bareDisk disk) 0) (r, s') := by
  obtain ⟨⟨r, s₁⟩, hcall, hret⟩ := bind_ok h
  cases hret
  have hmore : Returns (fun fuel => devfsAdd read fuel (bareDisk disk) 0) (r, s') :=
    ⟨fuel, fun more hmore => devfsAdd_le_of_le read hmore _ _ _ hcall⟩
  refine ⟨?_, r, hmore⟩
  obtain ⟨n, hn⟩ := hmore
  refine ⟨n, fun more hmore => ?_⟩
  have hret := hn more hmore
  dsimp only at hret
  show (devfsAdd read more (bareDisk disk) 0 >>= _) = _
  rw [hret]
  rfl

/-- What the disk and its partitions are in the table. -/
theorem addDisk_added {read : DeviceRead} {disk : Disk} {s' : Devfs}
    (h : Returns (addDisk read disk) s') : Added (bareDisk disk) 0 s' := by
  obtain ⟨fuel, hcall⟩ := h
  obtain ⟨-, r, hret⟩ := addDisk_of_ok (hcall fuel (Nat.le_refl _))
  obtain ⟨hheap, hbound⟩ := devfsReach_ok (bareDisk_reach read disk)
  exact devfsAdd_added hheap hbound (show 0 < (bareDisk disk).heap.length from Nat.succ_pos _) hret

/-- The disk is added if the devices on it answer. -/
theorem addDisk_returns (read : DeviceRead) (disk : Disk) :
    (∃ s', Returns (addDisk read disk) s') ↔
      ∀ x ∈ scanned read (bareDisk disk) 0 disk.node, x.Answers read := by
  obtain ⟨hheap, hbound⟩ := devfsReach_ok (bareDisk_reach read disk)
  rw [← devfsAdd_returns hheap hbound (show (bareDisk disk).heap[0]? = some disk.node from rfl)]
  constructor
  · intro h
    obtain ⟨s', fuel, hcall⟩ := h
    obtain ⟨-, r, hret⟩ := addDisk_of_ok (hcall fuel (Nat.le_refl _))
    exact ⟨_, hret⟩
  · intro h
    obtain ⟨⟨r, s'⟩, fuel, hcall⟩ := h
    have hret := hcall fuel (Nat.le_refl _)
    dsimp only at hret
    have hok : addDisk read disk fuel = .ok s' := by
      show (devfsAdd read fuel (bareDisk disk) 0 >>= _) = _
      rw [hret]
      rfl
    exact ⟨s', (addDisk_of_ok hok).1⟩

/-- The terminal stores nothing, so nothing is looked for on it. -/
theorem devfsAdd_tty (read : DeviceRead) (fuel : Nat) {s : Devfs} {v : Nat}
    (hv : s.heap[v]? = some ttyInit) :
    ∃ r, devfsAdd read (fuel + 1) s v =
      .ok (r, if s.nodCnt < maxNodes then s.enter v else s) := by
  rw [devfsAdd]
  by_cases hspace : s.nodCnt < maxNodes
  · have hnode : (s.enter v).node v = .ok ttyInit := Devfs.node_eq hv
    refine ⟨.unspecified, ?_⟩
    rw [if_pos hspace, if_pos hspace, hnode]
    rfl
  · refine ⟨.enfile, ?_⟩
    rw [if_neg hspace, if_neg hspace]

/-- The names of the disk and of what is on it start with another character than `tty`. -/
theorem disk_name_ne_tty {disk : Disk} {name : List (BitVec 8)} (h : disk.node.name <+: name) :
    name ≠ ttyInit.name := by
  obtain ⟨tail, htail⟩ := h
  intro heq
  rw [heq] at htail
  cases disk with
  | ata =>
    have hchar : (0x61 : BitVec 8) = 0x74 := (List.cons.inj htail).1
    exact absurd hchar (by decide)
  | initrd p len =>
    have hchar : (0x69 : BitVec 8) = 0x74 := (List.cons.inj htail).1
    exact absurd hchar (by decide)

/-- Behind the disk comes the terminal. -/
theorem addDevices_tty {read : DeviceRead} {disk : Disk} {s₁ : Devfs}
    (h : Returns (addDisk read disk) s₁) (between : List DevNode) :
    Returns (addDevices read disk between)
      (if s₁.nodCnt < maxNodes then
        (Devfs.alloc { s₁ with heap := s₁.heap ++ between } ttyInit).2.enter
          (s₁.heap ++ between).length
      else (Devfs.alloc { s₁ with heap := s₁.heap ++ between } ttyInit).2) := by
  obtain ⟨fuel, hfirst⟩ := h
  refine ⟨fuel + 1, fun more hmore => ?_⟩
  obtain ⟨more, rfl⟩ := Nat.exists_eq_add_of_le' (Nat.le_trans (Nat.le_add_left 1 fuel) hmore)
  obtain ⟨r, hr⟩ := @devfsAdd_tty read more
    (Devfs.alloc { s₁ with heap := s₁.heap ++ between } ttyInit).2 (s₁.heap ++ between).length alloc_node
  show (addDisk read disk (more + 1) >>= _) = _
  rw [hfirst (more + 1) (by omega)]
  show (devfsAdd read (more + 1) (Devfs.alloc { s₁ with heap := s₁.heap ++ between } ttyInit).2
    (s₁.heap ++ between).length >>= _) = _
  rw [hr]
  rfl

/-- The devices are added just when the disk is. -/
theorem addDevices_disk {read : DeviceRead} {disk : Disk} {between : List DevNode} {s : Devfs}
    (h : Returns (addDevices read disk between) s) : ∃ s₁, Returns (addDisk read disk) s₁ := by
  obtain ⟨fuel, hcall⟩ := h
  obtain ⟨s₁, hdisk, -⟩ := bind_ok (hcall fuel (Nat.le_refl _))
  exact ⟨s₁, (addDisk_of_ok hdisk).1⟩

/-- With the disk and the terminal, the names are in order. -/
theorem namesOk_devices {disk : Disk} {s₁ : Devfs} (hadded : Added (bareDisk disk) 0 s₁)
    (between : List DevNode) :
    NamesOk (if s₁.nodCnt < maxNodes then
      (Devfs.alloc { s₁ with heap := s₁.heap ++ between } ttyInit).2.enter
        (s₁.heap ++ between).length
      else (Devfs.alloc { s₁ with heap := s₁.heap ++ between } ttyInit).2) := by
  have hdisk : (bareDisk disk).heap[0]? = some disk.node := rfl
  have hshort : disk.node.name.length + maxNodes ≤ maxNamLen := by
    cases disk with
    | ata => exact Nat.le_of_ble_eq_true rfl
    | initrd p len => exact Nat.le_of_ble_eq_true rfl
  have hnames₁ := namesOk_added hadded rfl hdisk hshort
  have hnames₂ := namesOk_alloc (namesOk_alloc hnames₁ between) [ttyInit]
  split
  · refine namesOk_enter hnames₂ alloc_node (Nat.le_of_ble_eq_true rfl) fun k e hk he => ?_
    obtain ⟨m, n, hm, hn, hprefix⟩ := hadded.names k (Nat.zero_le k) hk
    cases hdisk.symm.trans hm
    have hsame : (Devfs.alloc { s₁ with heap := s₁.heap ++ between } ttyInit).2.entry k = some n := by
      obtain ⟨v, hv, hnode⟩ := Option.bind_eq_some_iff.mp hn
      refine Option.bind_eq_some_iff.mpr ⟨v, hv, ?_⟩
      show (s₁.heap ++ between ++ [ttyInit])[v]? = some n
      rw [List.append_assoc, List.getElem?_append_left (List.getElem?_eq_some_iff.mp hnode).1]
      exact hnode
    cases hsame.symm.trans he
    exact disk_name_ne_tty hprefix
  · exact hnames₂

/-- The devices are added just when those on the disk answer; and whatever the disk holds, behind this
the names of all entries are different, and `devfs_finddir` finds each entry by its name. -/
theorem device_names_resolve (read : DeviceRead) (disk : Disk) (between : List DevNode) :
    ((∃ s, Returns (addDevices read disk between) s) ↔
      ∀ x ∈ scanned read (bareDisk disk) 0 disk.node, x.Answers read) ∧
    ∀ s, Returns (addDevices read disk between) s →
      (∀ k k' n n', k < k' → k' < s.nodCnt → s.entry k = some n → s.entry k' = some n' →
        n.name ≠ n'.name) ∧
      ∀ k, k < s.nodCnt → ∃ v n, s.nodes k = some v ∧ s.heap[v]? = some n ∧
        devfsFinddir s n.name = .ok (.ok (some v)) := by
  constructor
  · rw [← addDisk_returns]
    constructor
    · intro h
      obtain ⟨s, hs⟩ := h
      exact addDevices_disk hs
    · intro h
      obtain ⟨s₁, hs₁⟩ := h
      exact ⟨_, addDevices_tty hs₁ between⟩
  · intro s hs
    obtain ⟨s₁, hs₁⟩ := addDevices_disk hs
    have hnames := namesOk_devices (addDisk_added hs₁) between
    cases returns_unique hs (addDevices_tty hs₁ between)
    refine ⟨hnames.distinct, fun k hk => ?_⟩
    obtain ⟨n, hn, -⟩ := hnames.short k hk
    obtain ⟨v, hv, hnode⟩ := Option.bind_eq_some_iff.mp hn
    exact ⟨v, n, hv, hnode, devfsFinddir_finds hnames hk hv hnode⟩

end OS64.Fs
