import OS64.Fs.Devfs

/-!
# The table of devices

Each call of `devfs_add` that goes on enters a node, and the loop of `mdpart_init` has it enter one
for each partition. `Added` says what one call of `devfs_add` does to the table and to the nodes,
`Found` what the loop of `mdpart_init` does.

Each node that is entered comes behind the node it was found on, with the name of that node and
a digit behind it, so every name entered for a partition starts with a name that no other
partition of the same node has.
-/

namespace OS64.Fs

/-- Partitions come behind the node they are on. -/
def HeapOk (heap : List DevNode) : Prop :=
  ∀ (v : Nat) (n : DevNode), heap[v]? = some n → ∀ p, n.ptr = some p → p < v

/-- The node of entry `k`. -/
def Devfs.entry (s : Devfs) (k : Nat) : Option DevNode := s.nodes k >>= fun v => s.heap[v]?

/-- Entry `k` is a partition of the node `p`, and its name is that of `p` with one more
character. -/
def ChildOf (s : Devfs) (p k : Nat) : Prop :=
  ∃ (n m : DevNode) (d : BitVec 8), s.entry k = some n ∧ n.ptr = some p ∧ s.heap[p]? = some m ∧
    n.name = m.name ++ [d]

/-- The character for partition `i`. -/
def digit (i : Nat) : BitVec 8 := BitVec.ofNat 8 (i + 0x30)

/-! ## What a call does -/

/-- Nodes and entries are added behind those that are there, in the table only. -/
structure Grown (s s' : Devfs) : Prop where
  heap : s.heap <+: s'.heap
  count : s.nodCnt ≤ s'.nodCnt
  bound : s'.nodCnt ≤ maxNodes
  kept : ∀ k, k < s.nodCnt ∨ s'.nodCnt ≤ k → s'.nodes k = s.nodes k
  parents : HeapOk s'.heap

/-- The new nodes are on `v` or on new nodes. -/
def FreshOn (s : Devfs) (v : Nat) (s' : Devfs) : Prop :=
  ∀ (i : Nat) (n : DevNode), s.heap.length ≤ i → s'.heap[i]? = some n →
    ∃ p, n.ptr = some p ∧ (p = v ∨ s.heap.length ≤ p)

/-- The new entries have different names. -/
def Distinct (s s' : Devfs) : Prop :=
  ∀ k k' n n', s.nodCnt ≤ k → k < k' → k' < s'.nodCnt → s'.entry k = some n →
    s'.entry k' = some n' → n.name ≠ n'.name

/-- What `devfs_add` does: it enters `v`, and behind it partitions of nodes that it has
entered. -/
structure Added (s : Devfs) (v : Nat) (s' : Devfs) : Prop extends Grown s s' where
  entered : s.nodCnt < maxNodes → s.nodCnt < s'.nodCnt
  fresh : FreshOn s v s'
  order : ∀ k, s.nodCnt ≤ k → k < s'.nodCnt →
    (k = s.nodCnt ∧ s'.nodes k = some v) ∨
      ∃ k' p, s.nodCnt ≤ k' ∧ k' < k ∧ s'.nodes k' = some p ∧ ChildOf s' p k
  names : ∀ k, s.nodCnt ≤ k → k < s'.nodCnt →
    ∃ m n, s.heap[v]? = some m ∧ s'.entry k = some n ∧ m.name <+: n.name
  distinct : Distinct s s'

/-- What the loop of `mdpart_init` does for the partitions `is` of the node `v`. -/
structure Found (s : Devfs) (v : Nat) (is : List Nat) (s' : Devfs) : Prop extends Grown s s' where
  fresh : FreshOn s v s'
  order : ∀ k, s.nodCnt ≤ k → k < s'.nodCnt →
    ∃ p, ChildOf s' p k ∧
      (p = v ∨ ∃ k', s.nodCnt ≤ k' ∧ k' < k ∧ s'.nodes k' = some p)
  names : ∀ k, s.nodCnt ≤ k → k < s'.nodCnt →
    ∃ i m n, i ∈ is ∧ s.heap[v]? = some m ∧ s'.entry k = some n ∧
      m.name ++ [digit i] <+: n.name
  distinct : Distinct s s'

section Grown

variable {s s' s'' : Devfs}

theorem grown_refl (hbound : s.nodCnt ≤ maxNodes) (hheap : HeapOk s.heap) : Grown s s :=
  ⟨List.prefix_refl _, Nat.le_refl _, hbound, fun _ _ => rfl, hheap⟩

theorem Grown.trans (h : Grown s s') (h' : Grown s' s'') : Grown s s'' where
  heap := h.heap.trans h'.heap
  count := Nat.le_trans h.count h'.count
  bound := h'.bound
  kept k hk := by
    have hcount := h.count
    have hcount' := h'.count
    rw [h'.kept k (by omega), h.kept k (by omega)]
  parents := h'.parents

/-- A node stays what it is. -/
theorem Grown.node_kept (h : Grown s s') {v : Nat} {n : DevNode} (hn : s.heap[v]? = some n) :
    s'.heap[v]? = some n := by
  obtain ⟨tail, htail⟩ := h.heap
  rw [← htail, List.getElem?_append_left (List.getElem?_eq_some_iff.mp hn).1]
  exact hn

theorem Grown.length_le (h : Grown s s') : s.heap.length ≤ s'.heap.length := h.heap.length_le

/-- An entry stays what it is. -/
theorem Grown.entry_kept (h : Grown s s') {k : Nat} (hk : k < s.nodCnt) {n : DevNode}
    (hn : s.entry k = some n) : s'.entry k = some n := by
  unfold Devfs.entry at hn ⊢
  rw [h.kept k (Or.inl hk)]
  obtain ⟨v, hv, hnode⟩ := Option.bind_eq_some_iff.mp hn
  exact Option.bind_eq_some_iff.mpr ⟨v, hv, h.node_kept hnode⟩

theorem Grown.child_kept (h : Grown s s') {p k : Nat} (hk : k < s.nodCnt) (hc : ChildOf s p k) :
    ChildOf s' p k := by
  obtain ⟨n, m, d, hn, hptr, hm, hname⟩ := hc
  exact ⟨n, m, d, h.entry_kept hk hn, hptr, h.node_kept hm, hname⟩

/-- A node that is handed out points back, if it points to a node. -/
theorem heapOk_alloc {n : DevNode} (hheap : HeapOk s.heap)
    (hptr : ∀ p, n.ptr = some p → p < s.heap.length) : HeapOk (s.alloc n).2.heap := by
  intro v m hm p hp
  by_cases hv : v < s.heap.length
  · have hold : s.heap[v]? = some m := by
      rw [← hm]
      exact (List.getElem?_append_left hv).symm
    exact hheap v m hold p hp
  · have hlt : v < (s.heap ++ [n]).length := (List.getElem?_eq_some_iff.mp hm).1
    rw [List.length_append, List.length_singleton] at hlt
    have hnew : (s.heap ++ [n])[v]? = some n := by
      rw [List.getElem?_append_right (by omega), show v - s.heap.length = 0 by omega]
      rfl
    have hmn : n = m := Option.some.inj (hnew.symm.trans hm)
    have hlast := hptr p (hmn ▸ hp)
    omega

theorem alloc_grown {n : DevNode} (hbound : s.nodCnt ≤ maxNodes) (hheap : HeapOk s.heap)
    (hptr : ∀ p, n.ptr = some p → p < s.heap.length) : Grown s (s.alloc n).2 where
  heap := List.prefix_append _ _
  count := Nat.le_refl _
  bound := hbound
  kept _ _ := rfl
  parents := heapOk_alloc hheap hptr

theorem alloc_lt (s : Devfs) (n : DevNode) : s.heap.length < (s.alloc n).2.heap.length := by
  show s.heap.length < (s.heap ++ [n]).length
  rw [List.length_append, List.length_singleton]
  exact Nat.lt_succ_self _

theorem alloc_node {n : DevNode} : (s.alloc n).2.heap[s.heap.length]? = some n := by
  show (s.heap ++ [n])[s.heap.length]? = some n
  rw [List.getElem?_append_right (Nat.le_refl _), Nat.sub_self]
  rfl

theorem enter_grown {v : Nat} (hspace : s.nodCnt < maxNodes) (hheap : HeapOk s.heap) :
    Grown s (s.enter v) where
  heap := List.prefix_refl _
  count := Nat.le_succ _
  bound := hspace
  kept k hk := by
    have hne : k ≠ s.nodCnt := by
      intro heq
      have hsucc : (s.enter v).nodCnt = s.nodCnt + 1 := rfl
      omega
    exact if_neg hne
  parents := hheap

theorem enter_entry (v : Nat) : (s.enter v).nodes s.nodCnt = some v := if_pos rfl

end Grown

/-! ## The loop over the partitions -/

section Loop

variable {s s₂ s' : Devfs} {v : Nat}

theorem digit_inj {i j : Nat} (hi : i < 4) (hj : j < 4) (h : digit i = digit j) : i = j := by
  have hval := congrArg BitVec.toNat h
  rw [digit, digit, BitVec.toNat_ofNat, BitVec.toNat_ofNat, Nat.mod_eq_of_lt (by omega),
    Nat.mod_eq_of_lt (by omega)] at hval
  omega

/-- Names of different partitions of one node, and of what is on them, are different. -/
theorem name_ne_of_digits {name a b : List (BitVec 8)} {c d : BitVec 8} (hcd : c ≠ d)
    (ha : name ++ [c] <+: a) (hb : name ++ [d] <+: b) : a ≠ b := by
  intro hab
  rw [hab] at ha
  have hone := List.prefix_of_prefix_length_le ha hb (by
    rw [List.length_append, List.length_append]
    exact Nat.le_refl _)
  have heq := List.append_cancel_left (hone.eq_of_length (by
    rw [List.length_append, List.length_append]
    rfl))
  exact hcd (List.cons.inj heq).1

theorem found_nil (is : List Nat) (hbound : s.nodCnt ≤ maxNodes) (hheap : HeapOk s.heap) :
    Found s v is s where
  toGrown := grown_refl hbound hheap
  fresh _ _ hi hn := absurd (List.getElem?_eq_some_iff.mp hn).1 (Nat.not_lt.mpr hi)
  order _ hk hk' := absurd hk' (Nat.not_lt.mpr hk)
  names _ hk hk' := absurd hk' (Nat.not_lt.mpr hk)
  distinct _ _ _ _ hk hlt hk' := absurd (Nat.lt_trans hlt hk') (Nat.not_lt.mpr hk)

theorem Found.weaken {i : Nat} {is : List Nat} (h : Found s v is s') : Found s v (i :: is) s' where
  toGrown := h.toGrown
  fresh := h.fresh
  order := h.order
  names k hk hk' := by
    obtain ⟨j, m, n, hj, hrest⟩ := h.names k hk hk'
    exact ⟨j, m, n, List.mem_cons_of_mem _ hj, hrest⟩
  distinct := h.distinct

/-- Partition `i` is made and entered, and the loop goes on. -/
theorem found_cons {i : Nat} {is : List Nat} {n : DevNode} {part : Partition}
    (hn : s.heap[v]? = some n) (hbound : s.nodCnt ≤ maxNodes) (hheap : HeapOk s.heap)
    (hi : i < 4) (his : ∀ j ∈ is, j < 4) (hnot : i ∉ is)
    (hadd : Added (s.alloc (mdpartNode n v i part)).2 s.heap.length s₂)
    (hrest : Found s₂ v is s') : Found s v (i :: is) s' := by
  have hv : v < s.heap.length := (List.getElem?_eq_some_iff.mp hn).1
  have halloc : Grown s (s.alloc (mdpartNode n v i part)).2 :=
    alloc_grown hbound hheap fun p hp => by
      cases hp
      exact hv
  have hchild : (s.alloc (mdpartNode n v i part)).2.heap[s.heap.length]? =
      some (mdpartNode n v i part) := alloc_node
  have hgrown : Grown s s₂ := halloc.trans hadd.toGrown
  have hnode₂ : s₂.heap[v]? = some n := hgrown.node_kept hn
  have hlen₂ : s.heap.length + 1 ≤ s₂.heap.length := by
    have hle := hadd.toGrown.length_le
    rw [show (s.alloc (mdpartNode n v i part)).2.heap.length = s.heap.length + 1 from
      List.length_append] at hle
    exact hle
  have hcount₂ : s.nodCnt ≤ s₂.nodCnt := hgrown.count
  -- the names of the first part start with the digit `i`, those of the rest with another one
  have hfirst : ∀ k, s.nodCnt ≤ k → k < s₂.nodCnt →
      ∃ m, s'.entry k = some m ∧ n.name ++ [digit i] <+: m.name := by
    intro k hk hk'
    obtain ⟨c, m, hc, hm, hprefix⟩ := hadd.names k hk hk'
    cases hchild.symm.trans hc
    exact ⟨m, hrest.toGrown.entry_kept hk' hm, hprefix⟩
  have hlast : ∀ k, s₂.nodCnt ≤ k → k < s'.nodCnt →
      ∃ j m, j ∈ is ∧ s'.entry k = some m ∧ n.name ++ [digit j] <+: m.name := by
    intro k hk hk'
    obtain ⟨j, c, m, hj, hc, hm, hprefix⟩ := hrest.names k hk hk'
    cases hnode₂.symm.trans hc
    exact ⟨j, m, hj, hm, hprefix⟩
  refine ⟨hgrown.trans hrest.toGrown, fun u m hu hm => ?_, fun k hk hk' => ?_, fun k hk hk' => ?_,
    fun k k' m m' hk hlt hk' hm hm' => ?_⟩
  · -- a new node is the partition, on a part of it, or made by the rest
    by_cases hlate : s₂.heap.length ≤ u
    · obtain ⟨p, hp, hwhere⟩ := hrest.fresh u m hlate hm
      exact ⟨p, hp, by omega⟩
    · have hu₂ : s₂.heap[u]? = some s₂.heap[u] := List.getElem?_eq_getElem (by omega)
      cases (hrest.toGrown.node_kept hu₂).symm.trans hm
      by_cases hself : u = s.heap.length
      · refine ⟨v, ?_, Or.inl rfl⟩
        have hmade := hadd.toGrown.node_kept hchild
        rw [← hself] at hmade
        rw [Option.some.inj (hu₂.symm.trans hmade)]
        rfl
      · obtain ⟨p, hp, hwhere⟩ := hadd.fresh u _ (by
          show (s.heap ++ [_]).length ≤ u
          rw [List.length_append, List.length_singleton]
          omega) hu₂
        refine ⟨p, hp, Or.inr ?_⟩
        rw [show (s.alloc (mdpartNode n v i part)).2.heap.length = s.heap.length + 1 from
          List.length_append] at hwhere
        omega
  · by_cases hearly : k < s₂.nodCnt
    · rcases hadd.order k hk hearly with ⟨-, hself⟩ | ⟨k', p, hk₁, hk₂, hp, hc⟩
      · have hentry : s₂.entry k = some (mdpartNode n v i part) :=
          Option.bind_eq_some_iff.mpr ⟨_, hself, hadd.toGrown.node_kept hchild⟩
        exact ⟨v, hrest.toGrown.child_kept hearly
          ⟨_, n, digit i, hentry, rfl, hnode₂, rfl⟩, Or.inl rfl⟩
      · refine ⟨p, hrest.toGrown.child_kept hearly hc, Or.inr ⟨k', hk₁, hk₂, ?_⟩⟩
        rw [hrest.kept k' (Or.inl (Nat.lt_trans hk₂ hearly))]
        exact hp
    · obtain ⟨p, hc, hwhere⟩ := hrest.order k (by omega) hk'
      refine ⟨p, hc, hwhere.imp_right fun h => ?_⟩
      obtain ⟨k', hk₁, hrest'⟩ := h
      exact ⟨k', Nat.le_trans hcount₂ hk₁, hrest'⟩
  · by_cases hearly : k < s₂.nodCnt
    · obtain ⟨m, hm, hprefix⟩ := hfirst k hk hearly
      exact ⟨i, n, m, List.mem_cons_self, hn, hm, hprefix⟩
    · obtain ⟨j, m, hj, hm, hprefix⟩ := hlast k (by omega) hk'
      exact ⟨j, n, m, List.mem_cons_of_mem _ hj, hn, hm, hprefix⟩
  · by_cases hearly' : k' < s₂.nodCnt
    · -- both in the first part
      obtain ⟨c, e, -, he, -⟩ := hadd.names k hk (by omega)
      obtain ⟨c', e', -, he', -⟩ := hadd.names k' (by
        show s.nodCnt ≤ k'
        omega) hearly'
      have hne := hadd.distinct k k' e e' hk hlt hearly' he he'
      cases (hrest.toGrown.entry_kept (by omega) he).symm.trans hm
      cases (hrest.toGrown.entry_kept hearly' he').symm.trans hm'
      exact hne
    · by_cases hearly : k < s₂.nodCnt
      · obtain ⟨e, he, hprefix⟩ := hfirst k hk hearly
        obtain ⟨j, e', hj, he', hprefix'⟩ := hlast k' (by omega) hk'
        cases he.symm.trans hm
        cases he'.symm.trans hm'
        refine name_ne_of_digits (fun hd => ?_) hprefix hprefix'
        exact hnot (digit_inj hi (his j hj) hd ▸ hj)
      · exact hrest.distinct k k' m m' (by omega) hlt hk' hm hm'

/-- A node that is entered, and what is found on it. -/
theorem added_of_found {is : List Nat} {n : DevNode} (hn : s.heap[v]? = some n)
    (hspace : s.nodCnt < maxNodes) (hheap : HeapOk s.heap) (h : Found (s.enter v) v is s') :
    Added s v s' := by
  have henter := @enter_grown s v hspace hheap
  have hself : s'.nodes s.nodCnt = some v := by
    rw [h.kept s.nodCnt (Or.inl (Nat.lt_succ_self _))]
    exact enter_entry v
  have hnode : s'.heap[v]? = some n := h.toGrown.node_kept hn
  have hfirst : s'.entry s.nodCnt = some n := Option.bind_eq_some_iff.mpr ⟨v, hself, hnode⟩
  -- an entry is the node itself, or one that was found
  have hcases : ∀ k, s.nodCnt ≤ k → k = s.nodCnt ∨ (s.enter v).nodCnt ≤ k := fun k hk =>
    (Nat.eq_or_lt_of_le hk).imp_left Eq.symm
  have hlonger : ∀ k m, (s.enter v).nodCnt ≤ k → k < s'.nodCnt → s'.entry k = some m →
      n.name <+: m.name ∧ n.name ≠ m.name := by
    intro k m hk hk' hm
    obtain ⟨i, c, e, -, hc, he, hprefix⟩ := h.names k hk hk'
    cases hn.symm.trans hc
    cases he.symm.trans hm
    refine ⟨(List.prefix_append _ _).trans hprefix, fun heq => ?_⟩
    have hlen := hprefix.length_le
    rw [← heq, List.length_append, List.length_singleton] at hlen
    omega
  refine ⟨henter.trans h.toGrown, fun _ => h.count, h.fresh, fun k hk hk' => ?_,
    fun k hk hk' => ?_, fun k k' m m' hk hlt hk' hm hm' => ?_⟩
  · rcases hcases k hk with heq | hlate
    · exact Or.inl ⟨heq, heq ▸ hself⟩
    · obtain ⟨p, hc, hwhere⟩ := h.order k hlate hk'
      refine Or.inr ?_
      rcases hwhere with hp | ⟨k', hk₁, hk₂, hp⟩
      · exact ⟨s.nodCnt, p, Nat.le_refl _, hlate, hp ▸ hself, hc⟩
      · exact ⟨k', p, Nat.le_of_succ_le hk₁, hk₂, hp, hc⟩
  · rcases hcases k hk with heq | hlate
    · exact ⟨n, n, hn, heq ▸ hfirst, List.prefix_refl _⟩
    · obtain ⟨i, c, e, -, hc, he, hprefix⟩ := h.names k hlate hk'
      exact ⟨c, e, hc, he, (List.prefix_append _ _).trans hprefix⟩
  · have hlate' : (s.enter v).nodCnt ≤ k' := Nat.lt_of_le_of_lt hk hlt
    rcases hcases k hk with heq | hlate
    · rw [heq] at hm
      cases hfirst.symm.trans hm
      exact (hlonger k' m' hlate' hk' hm').2
    · exact h.distinct k k' m m' hlate hlt hk' hm hm'

end Loop

end OS64.Fs
