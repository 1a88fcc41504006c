import OS64.Fs.DevfsSite

/-!
# Discovery

`devfs_add` and `mdpart_init` call each other, and every call of `devfs_add` that goes on has
entered a node: the space left in the table bounds the depth. What they walk is the tree of devices on
devices (`scanned`), each before what is on it, as far as there is room.

A call that ends has walked it, and entered it (`Added`, `Walked`); and it ends if the devices answer.
The three are proved for both functions together, by induction on the fuel, with the induction on the
partitions inside.
-/

namespace OS64.Fs

open OS64.Lib (ByteMem preorder preorder_nil preorder_cons preorder_root preorder_forall)

/-! ## What is walked -/

/-- All devices that there is room for answer. -/
def AllAnswer (read : DeviceRead) (s : Devfs) (xs : List Site) : Prop :=
  ∀ x ∈ preorder (Site.parts read) (maxNodes - s.nodCnt) xs, x.Answers read

/-- They do, and each of them has been entered. -/
structure Walked (read : DeviceRead) (s : Devfs) (xs : List Site) (s' : Devfs) : Prop where
  count : s'.nodCnt = s.nodCnt + (preorder (Site.parts read) (maxNodes - s.nodCnt) xs).length
  answers : AllAnswer read s xs

section Walk

variable {read : DeviceRead} {s s₁ s' : Devfs} {x : Site} {xs : List Site}

theorem walked_nil : Walked read s [] s := by
  refine ⟨?_, fun y hy => ?_⟩
  · rw [preorder_nil]
    rfl
  · rw [preorder_nil] at hy
    exact absurd hy List.not_mem_nil

theorem walked_full (hfull : maxNodes ≤ s.nodCnt) : Walked read s xs s := by
  have hnone : preorder (Site.parts read) (maxNodes - s.nodCnt) xs = [] := by
    rw [Nat.sub_eq_zero_of_le hfull]
    rfl
  refine ⟨?_, fun y hy => ?_⟩
  · rw [hnone]
    rfl
  · rw [hnone] at hy
    exact absurd hy List.not_mem_nil

/-- Behind the first device there is room for what it has left. -/
theorem allAnswer_cons (h : Walked read s [x] s₁) :
    AllAnswer read s (x :: xs) ↔ AllAnswer read s₁ xs := by
  have hcount := h.count
  have hroom : maxNodes - s.nodCnt - (preorder (Site.parts read) (maxNodes - s.nodCnt) [x]).length =
      maxNodes - s₁.nodCnt := by omega
  unfold AllAnswer
  rw [preorder_cons, hroom]
  constructor
  · intro hall y hy
    exact hall y (List.mem_append_right _ hy)
  · intro hall y hy
    rcases List.mem_append.mp hy with hy | hy
    · exact h.answers y hy
    · exact hall y hy

theorem walked_cons (h : Walked read s [x] s₁) (h' : Walked read s₁ xs s') :
    Walked read s (x :: xs) s' := by
  have hcount := h.count
  have hcount' := h'.count
  refine ⟨?_, (allAnswer_cons h).mpr h'.answers⟩
  have hroom : maxNodes - s.nodCnt - (preorder (Site.parts read) (maxNodes - s.nodCnt) [x]).length =
      maxNodes - s₁.nodCnt := by omega
  rw [preorder_cons, hroom, List.length_append]
  omega

/-- A device comes before what is on it. -/
theorem allAnswer_root (v : Nat) (hspace : s.nodCnt < maxNodes) :
    AllAnswer read s [x] ↔ x.Answers read ∧ AllAnswer read (s.enter v) (x.parts read) := by
  have hroom : maxNodes - s.nodCnt - 1 = maxNodes - (s.enter v).nodCnt := Nat.sub_sub _ _ _
  unfold AllAnswer
  rw [preorder_root (Nat.sub_pos_of_lt hspace), hroom]
  exact List.forall_mem_cons

theorem walked_root {v : Nat} (hspace : s.nodCnt < maxNodes) (hx : x.Answers read)
    (h : Walked read (s.enter v) (x.parts read) s') : Walked read s [x] s' := by
  have hcount := h.count
  refine ⟨?_, (allAnswer_root v hspace).mpr ⟨hx, h.answers⟩⟩
  have hroom : maxNodes - s.nodCnt - 1 = maxNodes - (s.enter v).nodCnt := Nat.sub_sub _ _ _
  have hone : (s.enter v).nodCnt = s.nodCnt + 1 := rfl
  rw [preorder_root (Nat.sub_pos_of_lt hspace), hroom, List.length_cons]
  omega

/-- The partitions that are made are those from the first one on, up to one of type 0. -/
theorem made_cons {buf : ByteMem} {i : Nat} {is : List Nat} (hlen : x.name.length < maxNamLen)
    (htype : (partAt buf i).type ≠ 0) :
    x.made buf (i :: is) = x.part i (partAt buf i) :: x.made buf is := by
  unfold Site.made
  rw [if_pos hlen, if_pos hlen, List.takeWhile_cons, if_pos (decide_eq_true htype)]
  rfl

theorem made_end {buf : ByteMem} {i : Nat} {is : List Nat} (htype : (partAt buf i).type = 0) :
    x.made buf (i :: is) = [] := by
  unfold Site.made
  rw [List.takeWhile_cons, if_neg fun hd => (of_decide_eq_true hd : (partAt buf i).type ≠ 0) htype]
  exact ite_self _

theorem made_long {buf : ByteMem} {is : List Nat} (hlen : ¬ x.name.length < maxNamLen) :
    x.made buf is = [] := if_neg hlen

end Walk

/-! ## The two functions -/

/-- Where the call that the loop makes ends, it has entered a node and what is on it. -/
def AddsOnly (read : DeviceRead) (add : Devfs → Nat → Exec (AddResult × Devfs)) : Prop :=
  ∀ (s : Devfs) (v : Nat) (n : DevNode) (r : AddResult) (s' : Devfs), HeapOk s.heap →
    s.nodCnt ≤ maxNodes → s.heap[v]? = some n → add s v = .ok (r, s') →
      Added s v s' ∧ Walked read s [siteOf s.heap v n] s'

/-- And it does end, where all devices answer. -/
def AddEnds (read : DeviceRead) (add : Devfs → Nat → Exec (AddResult × Devfs)) (room : Nat) : Prop :=
  ∀ (s : Devfs) (v : Nat) (n : DevNode), HeapOk s.heap → s.nodCnt ≤ maxNodes →
    maxNodes ≤ s.nodCnt + room → s.heap[v]? = some n → AllAnswer read s [siteOf s.heap v n] →
      ∃ t, add s v = .ok t

section Calls

variable {read : DeviceRead} {add : Devfs → Nat → Exec (AddResult × Devfs)} {v : Nat} {n : DevNode}

/-- The node of partition `i`, and what the call for it does. -/
theorem part_added (hadd : AddsOnly read add) {s s₂ : Devfs} {i : Nat} {p : Partition}
    {r : AddResult} (hn : s.heap[v]? = some n) (hheap : HeapOk s.heap) (hbound : s.nodCnt ≤ maxNodes)
    (hcall : add (s.alloc (mdpartNode n v i p)).2 s.heap.length = .ok (r, s₂)) :
    Grown s (s.alloc (mdpartNode n v i p)).2 ∧
      Added (s.alloc (mdpartNode n v i p)).2 s.heap.length s₂ ∧
      Walked read s [(siteOf s.heap v n).part i p] s₂ := by
  have hv : v < s.heap.length := (List.getElem?_eq_some_iff.mp hn).1
  have halloc : Grown s (s.alloc (mdpartNode n v i p)).2 :=
    alloc_grown hbound hheap fun p' hp => by
      cases hp
      exact hv
  obtain ⟨hadded, hwalked⟩ := hadd _ s.heap.length _ r s₂ halloc.parents hbound alloc_node hcall
  rw [show siteOf (s.alloc (mdpartNode n v i p)).2.heap s.heap.length (mdpartNode n v i p) =
    (siteOf s.heap v n).part i p from siteOf_part hheap hv n i p] at hwalked
  exact ⟨halloc, hadded, hwalked.count, hwalked.answers⟩

/-- Where the loop ends, it has found the partitions up to the first one of type 0. -/
theorem mdpartParts_found (hadd : AddsOnly read add) (buf : ByteMem) :
    ∀ {is : List Nat} {s s' : Devfs}, is.Nodup → (∀ i ∈ is, i < 4) → HeapOk s.heap →
      s.nodCnt ≤ maxNodes → s.heap[v]? = some n → mdpartParts add buf v is s = .ok s' →
      Found s v is s' ∧ Walked read s ((siteOf s.heap v n).made buf is) s' := by
  intro is
  induction is with
  | nil =>
    intro s s' _ _ hheap hbound _ h
    cases h
    refine ⟨found_nil [] hbound hheap, ?_⟩
    rw [show (siteOf s.heap v n).made buf [] = [] from ite_self _]
    exact walked_nil
  | cons i is ih =>
    intro s s' hnodup hfour hheap hbound hn h
    obtain ⟨hnot, hnodup'⟩ := List.nodup_cons.mp hnodup
    have hi : i < 4 := hfour i List.mem_cons_self
    have his : ∀ j ∈ is, j < 4 := fun j hj => hfour j (List.mem_cons_of_mem _ hj)
    have hnode : s.node v = .ok n := Devfs.node_eq hn
    rw [mdpartParts] at h
    by_cases htype : (partAt buf i).type = 0
    · rw [if_pos htype] at h
      cases h
      rw [made_end htype]
      exact ⟨found_nil _ hbound hheap, walked_nil⟩
    · rw [if_neg htype, hnode] at h
      change (if n.name.length < maxNamLen then _ else _) = _ at h
      by_cases hlen : n.name.length < maxNamLen
      · rw [if_pos hlen] at h
        obtain ⟨⟨r, s₂⟩, hcall, hloop⟩ := bind_ok h
        obtain ⟨halloc, hadded, hwalked⟩ := part_added hadd hn hheap hbound hcall
        have hgrown := halloc.trans hadded.toGrown
        obtain ⟨hfound, hrest⟩ := @ih s₂ s' hnodup' his hgrown.parents hgrown.bound
          (hgrown.node_kept hn) hloop
        rw [siteOf_grown hheap hgrown.heap (List.getElem?_eq_some_iff.mp hn).1] at hrest
        rw [made_cons hlen htype]
        exact ⟨found_cons hn hbound hheap hi his hnot hadded hfound, walked_cons hwalked hrest⟩
      · rw [if_neg hlen] at h
        obtain ⟨hfound, hwalked⟩ := @ih s s' hnodup' his hheap hbound hn h
        rw [made_long hlen] at hwalked ⊢
        exact ⟨hfound.weaken, hwalked⟩

/-- And it ends where the partitions and what is on them answer. -/
theorem mdpartParts_ends (hadd : AddsOnly read add) {room : Nat} (hends : AddEnds read add room)
    (buf : ByteMem) :
    ∀ {is : List Nat} {s : Devfs}, HeapOk s.heap → s.nodCnt ≤ maxNodes →
      maxNodes ≤ s.nodCnt + room → s.heap[v]? = some n →
      AllAnswer read s ((siteOf s.heap v n).made buf is) →
      ∃ s', mdpartParts add buf v is s = .ok s' := by
  intro is
  induction is with
  | nil => exact fun {s} _ _ _ _ _ => ⟨s, rfl⟩
  | cons i is ih =>
    intro s hheap hbound hroom hn hall
    have hv : v < s.heap.length := (List.getElem?_eq_some_iff.mp hn).1
    have hnode : s.node v = .ok n := Devfs.node_eq hn
    rw [mdpartParts]
    by_cases htype : (partAt buf i).type = 0
    · exact ⟨s, if_pos htype⟩
    · rw [if_neg htype, hnode]
      show ∃ s', (if n.name.length < maxNamLen then _ else _) = _
      by_cases hlen : n.name.length < maxNamLen
      · rw [made_cons hlen htype] at hall
        have halloc : Grown s (s.alloc (mdpartNode n v i (partAt buf i))).2 :=
          alloc_grown hbound hheap fun p hp => by
            cases hp
            exact hv
        have hfirst : AllAnswer read s [(siteOf s.heap v n).part i (partAt buf i)] := by
          intro y hy
          refine hall y ?_
          rw [preorder_cons]
          exact List.mem_append_left _ hy
        obtain ⟨⟨r, s₂⟩, hcall⟩ := hends (s.alloc (mdpartNode n v i (partAt buf i))).2 s.heap.length _
          halloc.parents hbound hroom alloc_node (by
            rw [show siteOf (s.alloc (mdpartNode n v i (partAt buf i))).2.heap s.heap.length
              (mdpartNode n v i (partAt buf i)) = (siteOf s.heap v n).part i (partAt buf i) from
              siteOf_part hheap hv n i _]
            exact hfirst)
        obtain ⟨-, hadded, hwalked⟩ := part_added hadd hn hheap hbound hcall
        have hgrown := halloc.trans hadded.toGrown
        have hcount := hgrown.count
        have hrest := (allAnswer_cons hwalked).mp hall
        rw [← siteOf_grown hheap hgrown.heap hv] at hrest
        obtain ⟨s', hloop⟩ := @ih s₂ hgrown.parents hgrown.bound (by omega) (hgrown.node_kept hn) hrest
        refine ⟨s', ?_⟩
        rw [if_pos hlen]
        show (add (s.alloc (mdpartNode n v i (partAt buf i))).2 s.heap.length >>= _) = _
        rw [hcall]
        exact hloop
      · rw [if_neg hlen]
        rw [made_long hlen] at hall
        refine ih hheap hbound hroom hn ?_
        rw [made_long hlen]
        exact hall

/-- `mdpart_init` behind its read of the first sector. -/
def mdpartTable (add : Devfs → Nat → Exec (AddResult × Devfs)) (s : Devfs) (v : Nat) :
    Except Errno (BitVec 64 × ByteMem) → Exec (Int × Devfs)
  | .error _ => .ok (-1, s)
  | .ok (count, buf) =>
    if (count.setWidth 32).slt 512 ∨ word buf 510 ≠ 0xAA55 then .ok (-1, s)
    else if ∃ i ∈ [0, 1, 2, 3], (partAt buf i).active &&& 1 ≠ 0 then .ok (-2, s)
    else
      (mdpartParts add buf v [0, 1, 2, 3] s).bind fun s' => .ok (0, s')

theorem mdpartInit_eq {s : Devfs} (hheap : HeapOk s.heap) (hn : s.heap[v]? = some n) :
    mdpartInit read add s v =
      comeBack ((siteOf s.heap v n).read read 0 512) >>= mdpartTable add s v := by
  unfold mdpartInit
  rw [vfsReadNode_site read hheap hn]
  rfl

/-- A table that is not accepted is refused. -/
theorem mdpartTable_refused {s : Devfs} {count : BitVec 64} {buf : ByteMem}
    (h : ¬ mdpartAccepts count buf) :
    ∃ r, r ≠ 0 ∧ ∀ add, mdpartTable add s v (.ok (count, buf)) = .ok (r, s) := by
  by_cases hshort : (count.setWidth 32).slt 512 ∨ word buf 510 ≠ 0xAA55
  · exact ⟨-1, by decide, fun _ => if_pos hshort⟩
  · have hodd : ∃ i ∈ ([0, 1, 2, 3] : List Nat), (partAt buf i).active &&& 1 ≠ 0 := by
      obtain ⟨hcount, hmagic⟩ := not_or.mp hshort
      by_contra hno
      refine h ⟨hcount, not_not.mp hmagic, fun i hi => ?_⟩
      by_contra hbit
      exact hno ⟨i, hi, hbit⟩
    exact ⟨-2, by decide, fun _ => (if_neg hshort).trans (if_pos hodd)⟩

/-- With an accepted one, the second loop is run. -/
theorem mdpartTable_accepted {s : Devfs} {count : BitVec 64} {buf : ByteMem}
    (h : mdpartAccepts count buf) : mdpartTable add s v (.ok (count, buf)) =
      (mdpartParts add buf v [0, 1, 2, 3] s).bind fun s' => .ok (0, s') := by
  obtain ⟨hcount, hmagic, hactive⟩ := h
  refine (if_neg (not_or.mpr ⟨hcount, fun h => h hmagic⟩)).trans (if_neg fun h => ?_)
  obtain ⟨i, hi, hbit⟩ := h
  exact hbit (hactive i hi)

/-- The partitions of a device that stores something and whose first sector has been read. -/
theorem parts_eq {s : Devfs} {answer : Except Errno (BitVec 64 × ByteMem)}
    (hflag : n.flags &&& vfsStorage ≠ 0)
    (hread : (siteOf s.heap v n).read read 0 512 = some answer) :
    (siteOf s.heap v n).parts read = (siteOf s.heap v n).listed answer := by
  unfold Site.parts
  rw [if_neg (show ¬ (siteOf s.heap v n).flags &&& vfsStorage = 0 from hflag), hread]

theorem mdpartInit_found (hadd : AddsOnly read add) {s s' : Devfs} {r : Int} (hheap : HeapOk s.heap)
    (hbound : s.nodCnt ≤ maxNodes) (hn : s.heap[v]? = some n)
    (h : mdpartInit read add s v = .ok (r, s')) :
    Found s v [0, 1, 2, 3] s' ∧ (n.flags &&& vfsStorage ≠ 0 →
      (siteOf s.heap v n).Answers read ∧ Walked read s ((siteOf s.heap v n).parts read) s') := by
  have hnothing : Found s v [0, 1, 2, 3] s := found_nil _ hbound hheap
  rw [mdpartInit_eq hheap hn] at h
  cases hread : (siteOf s.heap v n).read read 0 512 with
  | none =>
    rw [hread] at h
    cases h
  | some answer =>
    rw [hread] at h
    have hanswers : (siteOf s.heap v n).Answers read := by
      intro _
      rw [hread]
      rfl
    change mdpartTable add s v answer = _ at h
    cases answer with
    | error e =>
      cases h
      refine ⟨hnothing, fun hflag => ⟨hanswers, ?_⟩⟩
      rw [parts_eq hflag hread]
      exact walked_nil
    | ok t =>
      obtain ⟨count, buf⟩ := t
      by_cases haccept : mdpartAccepts count buf
      · rw [mdpartTable_accepted haccept] at h
        obtain ⟨s₁, hloop, hret⟩ := bind_ok h
        cases hret
        obtain ⟨hfound, hwalked⟩ := mdpartParts_found hadd buf (by decide) (by decide) hheap hbound hn
          hloop
        refine ⟨hfound, fun hflag => ⟨hanswers, ?_⟩⟩
        rw [parts_eq hflag hread, Site.listed, if_pos haccept]
        exact hwalked
      · obtain ⟨r', -, hret⟩ := @mdpartTable_refused v s count buf haccept
        rw [hret] at h
        cases h
        refine ⟨hnothing, fun hflag => ⟨hanswers, ?_⟩⟩
        rw [parts_eq hflag hread, Site.listed, if_neg haccept]
        exact walked_nil

theorem mdpartInit_ends (hadd : AddsOnly read add) {room : Nat} (hends : AddEnds read add room)
    {s : Devfs} (hheap : HeapOk s.heap) (hbound : s.nodCnt ≤ maxNodes)
    (hroom : maxNodes ≤ s.nodCnt + room) (hn : s.heap[v]? = some n)
    (hflag : n.flags &&& vfsStorage ≠ 0) (hanswer : (siteOf s.heap v n).Answers read)
    (hall : AllAnswer read s ((siteOf s.heap v n).parts read)) :
    ∃ t, mdpartInit read add s v = .ok t := by
  obtain ⟨answer, hread⟩ := Option.isSome_iff_exists.mp (hanswer hflag)
  rw [mdpartInit_eq hheap hn, hread]
  show ∃ t, mdpartTable add s v answer = .ok t
  rw [parts_eq hflag hread] at hall
  cases answer with
  | error e => exact ⟨_, rfl⟩
  | ok t =>
    obtain ⟨count, buf⟩ := t
    by_cases haccept : mdpartAccepts count buf
    · rw [Site.listed, if_pos haccept] at hall
      obtain ⟨s', hloop⟩ := mdpartParts_ends hadd hends buf hheap hbound hroom hn hall
      rw [mdpartTable_accepted haccept, hloop]
      exact ⟨_, rfl⟩
    · obtain ⟨r, -, hret⟩ := @mdpartTable_refused v s count buf haccept
      exact ⟨_, hret add⟩

end Calls

/-- A call on a full table. -/
theorem added_full {s : Devfs} {v : Nat} (hheap : HeapOk s.heap) (hbound : s.nodCnt ≤ maxNodes)
    (hfull : maxNodes ≤ s.nodCnt) : Added s v s where
  toGrown := grown_refl hbound hheap
  entered := fun hspace => absurd hfull (Nat.not_le.mpr hspace)
  fresh _ _ hi hn := absurd (List.getElem?_eq_some_iff.mp hn).1 (Nat.not_lt.mpr hi)
  order _ hk hk' := absurd hk' (Nat.not_lt.mpr hk)
  names _ hk hk' := absurd hk' (Nat.not_lt.mpr hk)
  distinct _ _ _ _ hk hlt hk' := absurd (Nat.lt_trans hlt hk') (Nat.not_lt.mpr hk)

/-- A device that stores nothing has no partitions. -/
theorem parts_none {read : DeviceRead} {x : Site} (hflag : ¬ x.flags &&& vfsStorage ≠ 0) :
    x.parts read = [] := if_pos (not_not.mp hflag)

/-- Where `devfs_add` ends, it has entered the node, and what is on it. -/
theorem devfsAdd_only (read : DeviceRead) : ∀ fuel, AddsOnly read (devfsAdd read fuel) := by
  intro fuel
  induction fuel with
  | zero =>
    intro s v n r s' _ _ _ h
    cases h
  | succ fuel ih =>
    intro s v n r s' hheap hbound hn h
    rw [devfsAdd] at h
    by_cases hspace : s.nodCnt < maxNodes
    · have hnode : (s.enter v).node v = .ok n := Devfs.node_eq hn
      have henter := @enter_grown s v hspace hheap
      rw [if_pos hspace, hnode] at h
      change (if n.flags &&& vfsStorage ≠ 0 then _ else _) = _ at h
      by_cases hflag : n.flags &&& vfsStorage ≠ 0
      · rw [if_pos hflag] at h
        obtain ⟨⟨r', s₁⟩, hcall, hret⟩ := bind_ok h
        cases hret
        obtain ⟨hfound, hwalked⟩ := mdpartInit_found ih henter.parents henter.bound hn hcall
        obtain ⟨hanswers, hparts⟩ := hwalked hflag
        exact ⟨added_of_found hn hspace hheap hfound, walked_root hspace hanswers hparts⟩
      · rw [if_neg hflag] at h
        cases h
        have hparts : Walked read (s.enter v) ((siteOf s.heap v n).parts read) (s.enter v) := by
          rw [@parts_none read (siteOf s.heap v n) hflag]
          exact walked_nil
        exact ⟨added_of_found hn hspace hheap (found_nil [] henter.bound henter.parents),
          walked_root hspace (fun hstore => absurd hstore hflag) hparts⟩
    · rw [if_neg hspace] at h
      cases h
      exact ⟨added_full hheap hbound (Nat.not_lt.mp hspace), walked_full (Nat.not_lt.mp hspace)⟩

/-- With as much fuel as the table has room, and one more, `devfs_add` ends if the devices answer. -/
theorem devfsAdd_ends (read : DeviceRead) : ∀ fuel, AddEnds read (devfsAdd read (fuel + 1)) fuel := by
  intro fuel
  induction fuel with
  | zero => exact fun s v n hheap hbound hroom hn _ => ⟨_, if_neg (Nat.not_lt.mpr hroom)⟩
  | succ fuel ih =>
    intro s v n hheap hbound hroom hn hall
    rw [devfsAdd]
    by_cases hspace : s.nodCnt < maxNodes
    · have hnode : (s.enter v).node v = .ok n := Devfs.node_eq hn
      have henter := @enter_grown s v hspace hheap
      obtain ⟨hanswer, hrest⟩ := (allAnswer_root v hspace).mp hall
      have hroom' : maxNodes ≤ (s.enter v).nodCnt + fuel := by
        show maxNodes ≤ s.nodCnt + 1 + fuel
        omega
      rw [if_pos hspace, hnode]
      show ∃ t, (if n.flags &&& vfsStorage ≠ 0 then _ else _) = _
      by_cases hflag : n.flags &&& vfsStorage ≠ 0
      · obtain ⟨t, ht⟩ := mdpartInit_ends (devfsAdd_only read (fuel + 1)) ih henter.parents
          henter.bound hroom' hn hflag hanswer hrest
        rw [if_pos hflag, ht]
        exact ⟨_, rfl⟩
      · rw [if_neg hflag]
        exact ⟨_, rfl⟩
    · exact ⟨_, if_neg hspace⟩

/-! ## More fuel

A call that ends does the same with more fuel. -/

/-- Where `add` ends, `add'` does the same. -/
def AddLe (add add' : Devfs → Nat → Exec (AddResult × Devfs)) : Prop :=
  ∀ s v a, add s v = .ok a → add' s v = .ok a

section Fuel

variable {add add' : Devfs → Nat → Exec (AddResult × Devfs)}

theorem mdpartParts_le (hle : AddLe add add') (buf : ByteMem) (v : Nat) :
    ∀ {is : List Nat} {s a : Devfs}, mdpartParts add buf v is s = .ok a →
      mdpartParts add' buf v is s = .ok a := by
  intro is
  induction is with
  | nil => exact fun h => h
  | cons i is ih =>
    intro s a h
    rw [mdpartParts] at h ⊢
    by_cases htype : (partAt buf i).type = 0
    · rw [if_pos htype] at h ⊢
      exact h
    · rw [if_neg htype] at h ⊢
      obtain ⟨n, hn, hbody⟩ := bind_ok h
      rw [hn]
      show (if n.name.length < maxNamLen then _ else _) = _
      by_cases hlen : n.name.length < maxNamLen
      · rw [if_pos hlen] at hbody ⊢
        obtain ⟨t, hcall, hrest⟩ := bind_ok hbody
        show (add' (s.alloc (mdpartNode n v i (partAt buf i))).2 s.heap.length >>= _) = _
        rw [hle (s.alloc (mdpartNode n v i (partAt buf i))).2 _ _ hcall]
        exact ih hrest
      · rw [if_neg hlen] at hbody ⊢
        exact ih hbody

theorem mdpartInit_le (read : DeviceRead) (hle : AddLe add add') {s : Devfs} {v : Nat}
    {a : Int × Devfs} (h : mdpartInit read add s v = .ok a) : mdpartInit read add' s v = .ok a := by
  obtain ⟨answer, hread, hbody⟩ := bind_ok h
  unfold mdpartInit
  rw [hread]
  cases answer with
  | error e => exact hbody
  | ok t =>
    obtain ⟨count, buf⟩ := t
    show (if (count.setWidth 32).slt 512 ∨ word buf 510 ≠ 0xAA55 then _ else
      if ∃ i ∈ ([0, 1, 2, 3] : List Nat), (partAt buf i).active &&& 1 ≠ 0 then _ else _) = _
    replace hbody : (if (count.setWidth 32).slt 512 ∨ word buf 510 ≠ 0xAA55 then _ else
      if ∃ i ∈ ([0, 1, 2, 3] : List Nat), (partAt buf i).active &&& 1 ≠ 0 then _ else _) =
        Except.ok a := hbody
    split at hbody
    · next hmagic =>
      rw [if_pos hmagic]
      exact hbody
    · next hmagic =>
      rw [if_neg hmagic]
      split at hbody
      · next hactive =>
        rw [if_pos hactive]
        exact hbody
      · next hactive =>
        obtain ⟨s', hloop, hret⟩ := bind_ok hbody
        rw [if_neg hactive, mdpartParts_le hle buf v hloop]
        exact hret

theorem devfsAdd_le (read : DeviceRead) : ∀ fuel,
    AddLe (devfsAdd read fuel) (devfsAdd read (fuel + 1)) := by
  intro fuel
  induction fuel with
  | zero =>
    intro s v a h
    cases h
  | succ fuel ih =>
    intro s v a h
    rw [devfsAdd] at h ⊢
    by_cases hspace : s.nodCnt < maxNodes
    · rw [if_pos hspace] at h ⊢
      obtain ⟨n, hn, hbody⟩ := bind_ok h
      rw [hn]
      show (if n.flags &&& vfsStorage ≠ 0 then _ else _) = _
      by_cases hflag : n.flags &&& vfsStorage ≠ 0
      · rw [if_pos hflag] at hbody ⊢
        obtain ⟨t, hcall, hret⟩ := bind_ok hbody
        rw [mdpartInit_le read ih hcall]
        exact hret
      · rw [if_neg hflag] at hbody ⊢
        exact hbody
    · rw [if_neg hspace] at h ⊢
      exact h

theorem devfsAdd_le_of_le (read : DeviceRead) {n fuel : Nat} (h : n ≤ fuel) :
    AddLe (devfsAdd read n) (devfsAdd read fuel) := by
  induction h with
  | refl => exact fun _ _ _ hcall => hcall
  | step _ ih => exact fun s v a hcall => devfsAdd_le read _ s v a (ih s v a hcall)

end Fuel

/-- A call of `devfs_add` returns just when all devices answer that it comes to. -/
theorem devfsAdd_returns {read : DeviceRead} {s : Devfs} {v : Nat} {n : DevNode}
    (hheap : HeapOk s.heap) (hbound : s.nodCnt ≤ maxNodes) (hn : s.heap[v]? = some n) :
    (∃ t, Returns (fun fuel => devfsAdd read fuel s v) t) ↔
      ∀ x ∈ scanned read s v n, x.Answers read := by
  constructor
  · intro h
    obtain ⟨⟨r, s'⟩, fuel, hcall⟩ := h
    exact (devfsAdd_only read fuel s v n r s' hheap hbound hn (hcall fuel (Nat.le_refl _))).2.answers
  · intro hall
    obtain ⟨t, hcall⟩ := devfsAdd_ends read maxNodes s v n hheap hbound (Nat.le_add_left _ _) hn hall
    exact ⟨t, maxNodes + 1, fun fuel hfuel => devfsAdd_le_of_le read hfuel s v _ hcall⟩

/-- A call that returns has entered the node, and what is on it. -/
theorem devfsAdd_added {read : DeviceRead} {s s' : Devfs} {v : Nat} {r : AddResult}
    (hheap : HeapOk s.heap) (hbound : s.nodCnt ≤ maxNodes) (hv : v < s.heap.length)
    (h : Returns (fun fuel => devfsAdd read fuel s v) (r, s')) : Added s v s' := by
  obtain ⟨fuel, hcall⟩ := h
  exact (devfsAdd_only read fuel s v _ r s' hheap hbound (List.getElem?_eq_getElem hv)
    (hcall fuel (Nat.le_refl _))).1

/-! ## Runs -/

/-- The states of a run, also in the middle of a call: behind `devfs_init` nodes are handed out,
which point to nothing or to a node that is there, entered where there is room, and added. -/
inductive DevfsReach (read : DeviceRead) : Devfs → Prop
  | init (s : Devfs) (h : ∀ n ∈ s.heap, n.ptr = none) : DevfsReach read (devfsInit s).2
  | alloc {s : Devfs} (n : DevNode) (h : ∀ p, n.ptr = some p → p < s.heap.length)
      (hs : DevfsReach read s) : DevfsReach read (s.alloc n).2
  | enter {s : Devfs} (v : Nat) (h : s.nodCnt < maxNodes) (hs : DevfsReach read s) :
      DevfsReach read (s.enter v)
  | add {s s' : Devfs} {v : Nat} {r : AddResult} (hv : v < s.heap.length)
      (hcall : Returns (fun fuel => devfsAdd read fuel s v) (r, s')) (hs : DevfsReach read s) :
      DevfsReach read s'

theorem devfsReach_ok {read : DeviceRead} {s : Devfs} (h : DevfsReach read s) :
    HeapOk s.heap ∧ s.nodCnt ≤ maxNodes := by
  induction h with
  | init s h =>
    have hbound : ({ s with nodCnt := 0 } : Devfs).nodCnt ≤ maxNodes := Nat.zero_le _
    refine ⟨(alloc_grown hbound (fun v n hn p hp => ?_) fun p hp => ?_).parents, hbound⟩
    · have hnone := h n (List.mem_of_getElem? hn)
      rw [hnone] at hp
      cases hp
    · cases hp
  | alloc n h _ ih => exact ⟨(alloc_grown ih.2 ih.1 h).parents, ih.2⟩
  | enter v h _ ih => exact ⟨ih.1, h⟩
  | add hv hcall _ ih =>
    have hadded := devfsAdd_added ih.1 ih.2 hv hcall
    exact ⟨hadded.parents, hadded.bound⟩

/-- A call of `devfs_add` returns; it writes the table only behind the entries that are there and only
inside it, and leaves the nodes that are there as they are; and each entry it makes is the device it
is called for or comes behind the device that it is a partition of. -/
def Discovers (read : DeviceRead) (s : Devfs) (v : Nat) : Prop :=
  ∃ r s', Returns (fun fuel => devfsAdd read fuel s v) (r, s') ∧
    s.nodCnt ≤ s'.nodCnt ∧ s'.nodCnt ≤ maxNodes ∧
    (∀ k, k < s.nodCnt ∨ maxNodes ≤ k → s'.nodes k = s.nodes k) ∧
    (∀ i, i < s.heap.length → s'.heap[i]? = s.heap[i]?) ∧
    ∀ k, s.nodCnt ≤ k → k < s'.nodCnt →
      (k = s.nodCnt ∧ s'.nodes k = some v) ∨
        ∃ k' p n, s.nodCnt ≤ k' ∧ k' < k ∧ s'.nodes k' = some p ∧ s'.entry k = some n ∧
          n.ptr = some p

/-- A call that returns does all of that. -/
theorem discovers_of_returns {read : DeviceRead} {s s' : Devfs} {v : Nat} {r : AddResult}
    (hheap : HeapOk s.heap) (hbound : s.nodCnt ≤ maxNodes) (hv : v < s.heap.length)
    (hcall : Returns (fun fuel => devfsAdd read fuel s v) (r, s')) : Discovers read s v := by
  have hadded := devfsAdd_added hheap hbound hv hcall
  refine ⟨r, s', hcall, hadded.count, hadded.bound, fun k hk => ?_, fun i hi => ?_,
    fun k hk hk' => ?_⟩
  · exact hadded.kept k (hk.imp_right (Nat.le_trans hadded.bound))
  · rw [List.getElem?_eq_getElem hi]
    exact hadded.toGrown.node_kept (List.getElem?_eq_getElem hi)
  · refine (hadded.order k hk hk').imp_right fun h => ?_
    obtain ⟨k', p, hk₁, hk₂, hp, n, m, d, hn, hptr, -, -⟩ := h
    exact ⟨k', p, n, hk₁, hk₂, hp, hn, hptr⟩

/-- In every run, a call of `devfs_add` returns, within the table and in order, just when each device
answers that the nested tables list, as far as there is room for it; and on the disk of the kernel,
when none of these asks it for nothing. -/
theorem discovery_ends_iff {read : DeviceRead} {s : Devfs} (hs : DevfsReach read s) {v : Nat}
    {n : DevNode} (hn : s.heap[v]? = some n) :
    (Discovers read s v ↔ ∀ x ∈ scanned read s v n, x.Answers read) ∧
      ∀ pio fresh, read = ataDevice pio fresh →
        (Discovers read s v ↔ ∀ x ∈ scanned read s v n, ¬ x.Empty) := by
  obtain ⟨hheap, hbound⟩ := devfsReach_ok hs
  have hiff : Discovers read s v ↔ ∀ x ∈ scanned read s v n, x.Answers read := by
    rw [← devfsAdd_returns hheap hbound hn]
    constructor
    · intro h
      obtain ⟨r, s', hcall, -⟩ := h
      exact ⟨_, hcall⟩
    · intro h
      obtain ⟨⟨r, s'⟩, hcall⟩ := h
      exact discovers_of_returns hheap hbound (List.getElem?_eq_some_iff.mp hn).1 hcall
  refine ⟨hiff, fun pio fresh hread => hiff.trans ?_⟩
  exact forall_congr' fun x => forall_congr' fun hx => by
    rw [hread]
    exact answers_iff_not_empty (scanned_clips s v n x hx)

/-- The disk of the kernel, behind `devfs_init`. -/
def ataDisk : Devfs := (devfsInit ⟨[ataInit], fun _ => none, 0⟩).2

theorem ataDisk_reach (read : DeviceRead) : DevfsReach read ataDisk :=
  .init _ fun _ hn => by
    rw [List.mem_singleton.mp hn]
    rfl

/-- A sector with a partition from sector 0 on. -/
def selfTable : ByteMem := fun a =>
  if a = 510 then 0x55 else if a = 511 then 0xAA else if a = 450 ∨ a = 460 then 0x83 else 0

/-- The disk that contains itself. -/
def selfDisk : DeviceRead := ataDevice (ataDrive selfTable) fun _ => 0

/-- Its first sector, as it is read. -/
def selfSector : ByteMem := ByteMem.fill (fun _ => 0) 0 (ataDrive selfTable 0 1 fun _ => 0) 0 512

/-- Each device on it begins with the first sector of the disk. -/
theorem selfDisk_asks : ∀ x ∈ scanned selfDisk ataDisk 0 ataInit, x.ask 0 512 = .ok (0, 0, 512) := by
  refine preorder_forall (fun x hx y hy => ?_) _ _ fun x hx => ?_
  · obtain ⟨count, buf, i, hread, hi, rfl⟩ := mem_parts hy
    have hsector : x.read selfDisk 0 512 = some (.ok (512, selfSector)) := by
      unfold Site.read
      rw [hx]
      rfl
    cases hsector.symm.trans hread
    have hused : usedParts selfSector = [0] := by decide +kernel
    rw [hused] at hi
    rw [List.mem_singleton.mp hi]
    have hfirst : (partAt selfSector 0).firstSector = 0 := by decide +kernel
    have hnum : (partAt selfSector 0).numSectors = 0x830000 := by decide +kernel
    show (if ((partAt selfSector 0).numSectors * 512).setWidth 64 < 0 then .error .einval else
      x.ask (0 + ((partAt selfSector 0).firstSector * 512).setWidth 64)
        ((clipInt (((partAt selfSector 0).numSectors * 512).setWidth 64) 0 512).signExtend 64)) = _
    rw [hfirst, hnum]
    exact hx
  · rw [List.mem_singleton.mp hx]
    rfl

/-- It is found within the table. -/
theorem discovery_ends_self : Discovers selfDisk ataDisk 0 := by
  refine ((discovery_ends_iff (ataDisk_reach selfDisk) (show ataDisk.heap[0]? = some ataInit from
    rfl)).2 _ _ rfl).mpr fun x hx hempty => ?_
  obtain ⟨-, t, hask, -, hnone⟩ := hempty
  cases (selfDisk_asks x hx).symm.trans hask
  exact absurd hnone (by decide)

/-- A sector with a partition that has no sector. -/
def emptyTable : ByteMem := fun a =>
  if a = 510 then 0x55 else if a = 511 then 0xAA else if a = 450 then 0x83 else 0

/-- The first sector of a disk with it, as it is read. -/
def emptySector : ByteMem := ByteMem.fill (fun _ => 0) 0 (ataDrive emptyTable 0 1 fun _ => 0) 0 512

/-- Discovery does not come back from the disk. -/
theorem empty_partition_hangs :
    ¬ Discovers (ataDevice (ataDrive emptyTable) fun _ => 0) ataDisk 0 := by
  intro h
  have hall := ((discovery_ends_iff (ataDisk_reach (ataDevice (ataDrive emptyTable) fun _ => 0))
    (show ataDisk.heap[0]? = some ataInit from rfl)).2 _ _ rfl).mp h
  have hread : (siteOf ataDisk.heap 0 ataInit).read (ataDevice (ataDrive emptyTable) fun _ => 0)
      0 512 = some (.ok (512, emptySector)) := rfl
  have hused : usedParts emptySector = [0] := by decide +kernel
  have haccept : mdpartAccepts 512 emptySector := by decide +kernel
  have hnum : (partAt emptySector 0).numSectors = 0 := by decide +kernel
  have hfirst : (partAt emptySector 0).firstSector = 0 := by decide +kernel
  have hparts : (siteOf ataDisk.heap 0 ataInit).parts (ataDevice (ataDrive emptyTable) fun _ => 0) =
      [(siteOf ataDisk.heap 0 ataInit).part 0 (partAt emptySector 0)] := by
    have hmade : (siteOf ataDisk.heap 0 ataInit).made emptySector [0, 1, 2, 3] =
        (usedParts emptySector).map fun i =>
          (siteOf ataDisk.heap 0 ataInit).part i (partAt emptySector i) :=
      if_pos (Nat.le_of_ble_eq_true rfl)
    rw [parts_eq (by decide) hread, Site.listed, if_pos haccept, hmade, hused]
    rfl
  -- the partition is walked behind the disk, and the read of it is one of no byte
  refine hall ((siteOf ataDisk.heap 0 ataInit).part 0 (partAt emptySector 0)) ?_ ⟨by decide, ?_⟩
  · unfold scanned
    rw [preorder_root (by decide), hparts, preorder_root (by decide)]
    exact List.mem_cons_of_mem _ List.mem_cons_self
  · refine ⟨(0, 0, 0), ?_, Nat.zero_le _, Or.inl rfl⟩
    show (if ((partAt emptySector 0).numSectors * 512).setWidth 64 < 0 then .error .einval else
      nodeAsk ataDisk.heap 1 0 (0 + ((partAt emptySector 0).firstSector * 512).setWidth 64)
        ((clipInt (((partAt emptySector 0).numSectors * 512).setWidth 64) 0 512).signExtend 64)) = _
    rw [hnum, hfirst]
    rfl

end OS64.Fs
