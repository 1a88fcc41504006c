import OS64.Fs.Ext2Records

/-!
# Listing a directory

A caller lists a directory by `ext2_readdir` for the indices 0, 1, 2 and so on, until it gets
`EINVAL`. The index counts records, deleted ones with the others, up to the first record
without a name, and the buffer ends with the twelfth block. `enumerate_iff` says for which
directories the list is that of the live entries: `enumMeets` goes through the records.
-/

namespace OS64.Fs

open OS64.Lib
open OS64.Lib.ByteMem

/-- The entry of a record. -/
def DirRecord.dirent (r : DirRecord) : Dirent := ⟨r.name, r.inode.setWidth 64⟩

/-- The live entries, in the order of the records. -/
def liveEntries (rs : List DirRecord) : List Dirent :=
  (rs.filter fun r => r.live).map DirRecord.dirent

/-- The calls for 0, 1, 2 and so on return the live entries, and then `EINVAL`. -/
def Enumerates (fresh : Fresh) (node : Ext2Node) (rs : List DirRecord) : Prop :=
  (∀ k e, (liveEntries rs)[k]? = some e →
      Returns (fun fuel => ext2Readdir fuel fresh (some node) (BitVec.ofNat 64 k)) (.ok e)) ∧
    Returns (fun fuel =>
      ext2Readdir fuel fresh (some node) (BitVec.ofNat 64 (liveEntries rs).length)) (.error .einval)

/-- The records from byte `p` on are live, have names that end with them, and are in reach as
far as they are looked at; behind the first one without a name all are deleted. -/
def enumMeets (cap : Nat) : Nat → List DirRecord → Prop
  | _, [] => True
  | p, r :: rs =>
    if r.name = [] then p + 7 ≤ cap ∧ ∀ r' ∈ r :: rs, ¬ r'.live
    else r.live ∧ strncpyList r.name = r.name ∧ p + 8 + examined r.name ≤ cap ∧
      enumMeets cap (p + r.size) rs

section Entries

theorem liveEntries_cons (r : DirRecord) (rs : List DirRecord) :
    liveEntries (r :: rs) = if r.live then r.dirent :: liveEntries rs else liveEntries rs := by
  unfold liveEntries
  rw [List.filter_cons]
  by_cases h : r.live
  · rw [if_pos h, if_pos (decide_eq_true h), List.map_cons]
  · rw [if_neg h, if_neg fun hd => h (of_decide_eq_true hd)]

theorem liveEntries_length (rs : List DirRecord) : (liveEntries rs).length ≤ rs.length := by
  unfold liveEntries
  rw [List.length_map]
  exact List.length_filter_le _ _

theorem liveEntries_eq_nil {rs : List DirRecord} :
    liveEntries rs = [] ↔ ∀ r ∈ rs, ¬ r.live := by
  unfold liveEntries
  rw [List.map_eq_nil_iff, List.filter_eq_nil_iff]
  exact forall_congr' fun r => forall_congr' fun _ => not_congr decide_eq_true_iff

/-- An entry has the inode number of a live record. -/
theorem liveEntries_inode {rs : List DirRecord} {e : Dirent} (h : e ∈ liveEntries rs) :
    e.inode ≠ 0 := by
  obtain ⟨r, hr, he⟩ := List.mem_map.mp h
  have hlive : r.live := of_decide_eq_true (List.mem_filter.mp hr).2
  intro h0
  rw [← he] at h0
  refine hlive ?_
  have hnarrow := congrArg (BitVec.setWidth 32) (show r.inode.setWidth 64 = 0 from h0)
  rw [BitVec.setWidth_setWidth_of_le _ (by decide), BitVec.setWidth_eq] at hnarrow
  exact hnarrow

end Entries

/-! ## From a record on -/

section Walk

variable {d : DirBuffer} {size : Nat}

/-- The walks that are at byte `p` with the counter `k` list the entries `es`. -/
def ListsFrom (d : DirBuffer) (size k p : Nat) (es : List Dirent) : Prop :=
  (∀ j e, es[j]? = some e → Returns (fun fuel =>
      readdirWalk d size (BitVec.ofNat 64 (k + j)) fuel (BitVec.ofNat 32 k) p) (.ok e)) ∧
    Returns (fun fuel =>
      readdirWalk d size (BitVec.ofNat 64 (k + es.length)) fuel (BitVec.ofNat 32 k) p)
      (.error .einval)

/-- A call that takes one more round. -/
theorem returns_succ {α : Type} {call next : Nat → Exec α} {a : α}
    (h : ∀ fuel, call (fuel + 1) = next fuel) : Returns call a ↔ Returns next a := by
  constructor
  · intro hret
    obtain ⟨n, hn⟩ := hret
    exact ⟨n, fun fuel hfuel => (h fuel).symm.trans (hn (fuel + 1) (Nat.le_succ_of_le hfuel))⟩
  · intro hret
    obtain ⟨n, hn⟩ := hret
    refine ⟨n + 1, fun fuel hfuel => ?_⟩
    obtain ⟨fuel, rfl⟩ := Nat.exists_eq_add_of_le' (Nat.le_trans (Nat.le_add_left 1 n) hfuel)
    exact (h fuel).trans (hn fuel (Nat.le_of_succ_le_succ hfuel))

/-- A call that ends in the first round. -/
theorem returns_of_step {α : Type} {call : Nat → Exec α} {a : α}
    (h : ∀ fuel, call (fuel + 1) = .ok a) : Returns call a := by
  refine ⟨1, fun fuel hfuel => ?_⟩
  obtain ⟨fuel, rfl⟩ := Nat.exists_eq_add_of_le' hfuel
  exact h fuel

/-- The end of the directory, and a record without a name, end the list. -/
theorem readdirWalk_end {k p : Nat} (index : BitVec 64)
    (h : p < size → p + 7 ≤ d.cap ∧ recLength d.data p = 0) (fuel : Nat) :
    readdirWalk d size index (fuel + 1) (BitVec.ofNat 32 k) p = .ok (.error .einval) := by
  have hstop : ¬ (p < size ∧ recLength d.data p ≠ 0 ∧
      (BitVec.ofNat 32 k).signExtend 64 < index) := fun hall => hall.2.1 (h hall.1).2
  have hextent : p < size → p + recExtent d.data p ≤ d.cap := by
    intro hp
    rw [recExtent, if_pos (h hp).2]
    exact (h hp).1
  unfold readdirWalk
  rw [readdirLoop_step index fuel _ fun hp => (h hp).1, if_neg hstop]
  show readdirEntry d size index _ p = _
  rw [readdirEntry_eq index _ hextent, if_neg fun hall => hall.2.2 (h hall.2.1).2]

/-- At its index, the walk makes an entry of a record with a name. -/
theorem readdirWalk_named {k p : Nat} (hk : k < 2 ^ 31) (hp : p < size)
    (hlength : recLength d.data p ≠ 0) (hin : p + recExtent d.data p ≤ d.cap) (fuel : Nat) :
    readdirWalk d size (BitVec.ofNat 64 k) (fuel + 1) (BitVec.ofNat 32 k) p =
      .ok (.ok ⟨strncpyList (recName d.data p), BitVec.ofNat 64 (recInode d.data p)⟩) := by
  have hge := recExtent_ge d.data p
  rw [readdirWalk_entry hk rfl fun _ => by omega, readdirEntry_eq _ _ fun _ => hin,
    if_pos ⟨signExtend_ofNat hk, hp, hlength⟩]

/-- A name that lies in the buffer as far as it is looked at is copied as it is stored. -/
theorem recName_agree {m : ByteMem} {p : Nat} {r : DirRecord} (h : RecordAt m p r)
    (hin : p + r.size ≤ size) (hsame : ∀ x, x < size → x < d.cap → d.data x = m x)
    (hlength : recLength d.data p = r.name.length)
    (hreach : p + 8 + examined (recName d.data p) ≤ d.cap ∨ p + 8 + examined r.name ≤ d.cap) :
    examined (recName d.data p) = examined r.name ∧
      strncpyList (recName d.data p) = strncpyList r.name := by
  have hfits := r.fits
  have hname : bytesAt m (p + 8) r.name.length = r.name := by
    rw [← recordAt_length h]
    exact h.name
  have hdata : recName d.data p = bytesAt d.data (p + 8) r.name.length := by
    rw [recName, hlength]
  rw [hdata] at hreach ⊢
  rcases hreach with hbuf | hdisk
  · -- the bytes in the buffer say how far it is
    have hle := examined_le (bytesAt d.data (p + 8) r.name.length)
    rw [bytesAt_length] at hle
    obtain ⟨hexamined, hcopy⟩ := @examined_congr d.data m r.name.length (p + 8)
      fun x _ hx => (hsame x (by omega) (by omega)).symm
    rw [hname] at hexamined hcopy
    exact ⟨hexamined.symm, hcopy.symm⟩
  · have hle := examined_le r.name
    obtain ⟨hexamined, hcopy⟩ := @examined_congr m d.data r.name.length (p + 8) fun x _ hx => by
      rw [hname] at hx
      exact hsame x (by omega) (by omega)
    rw [hname] at hexamined hcopy
    exact ⟨hexamined, hcopy⟩

/-- Whatever they list, walks from a record return at its index. -/
theorem listsFrom_returns {k p : Nat} {es : List Dirent} (h : ListsFrom d size k p es) :
    ∃ r, Returns (fun fuel =>
      readdirWalk d size (BitVec.ofNat 64 k) fuel (BitVec.ofNat 32 k) p) r := by
  cases es with
  | nil => exact ⟨_, h.2⟩
  | cons e es => exact ⟨_, h.1 0 e rfl⟩

/-- A record with a name is listed first, and the rest is listed from the next one on. -/
theorem listsFrom_cons {k p : Nat} {e : Dirent} {es : List Dirent} (hk : k < 2 ^ 31)
    (hbound : k + es.length + 1 < 2 ^ 64) (hp : p < size)
    (hlength : recLength d.data p ≠ 0) (hin : p + 7 ≤ d.cap) :
    ListsFrom d size k p (e :: es) ↔
      Returns (fun fuel => readdirWalk d size (BitVec.ofNat 64 k) fuel (BitVec.ofNat 32 k) p)
        (.ok e) ∧ ListsFrom d size (k + 1) (p + recSize d.data p) es := by
  have hstep : ∀ j a, j ≤ es.length →
      (Returns (fun fuel => readdirWalk d size (BitVec.ofNat 64 (k + (j + 1))) fuel
        (BitVec.ofNat 32 k) p) a ↔
      Returns (fun fuel => readdirWalk d size (BitVec.ofNat 64 (k + 1 + j)) fuel
        (BitVec.ofNat 32 (k + 1)) (p + recSize d.data p)) a) := by
    intro j a hj
    have hindex : k < (BitVec.ofNat 64 (k + (j + 1))).toNat := by
      rw [BitVec.toNat_ofNat, Nat.mod_eq_of_lt (by omega)]
      omega
    rw [show k + 1 + j = k + (j + 1) by omega]
    exact returns_succ fun fuel => readdirWalk_step hk hindex hp hin hlength
  constructor
  · intro h
    refine ⟨h.1 0 e rfl, fun j e' he' => ?_, (hstep _ _ (Nat.le_refl _)).mp h.2⟩
    have hj : j < es.length := (List.getElem?_eq_some_iff.mp he').1
    exact (hstep j _ (Nat.le_of_lt hj)).mp (h.1 (j + 1) e' he')
  · intro h
    refine ⟨fun j e' he' => ?_, (hstep _ _ (Nat.le_refl _)).mpr h.2.2⟩
    cases j with
    | zero =>
      cases he'
      exact h.1
    | succ j =>
      have hj : j < es.length :=
        Nat.lt_of_succ_lt_succ (List.getElem?_eq_some_iff.mp he').1
      exact (hstep j _ (Nat.le_of_lt hj)).mpr (h.2.1 j e' he')

/-- The walks from a record list the live entries just when the records meet the condition. -/
theorem listsFrom_iff {m : ByteMem} (hcap : d.cap < 2 ^ 31) (hsize : size < 2 ^ 64)
    (hsame : ∀ x, x < size → x < d.cap → d.data x = m x) {rs : List DirRecord} :
    ∀ {k p : Nat}, k ≤ p → Stored m p rs size →
      (ListsFrom d size k p (liveEntries rs) ↔ enumMeets d.cap p rs) := by
  induction rs with
  | nil =>
    intro k p _ h
    have hend : ¬ p < size := Nat.not_lt.mpr (Nat.le_of_eq h.symm)
    refine iff_of_true ⟨fun j e he => ?_, ?_⟩ trivial
    · cases he
    · exact returns_of_step (readdirWalk_end _ fun hp => absurd hp hend)
  | cons r rs ih =>
    intro k p hk h
    have hfits := r.fits
    have hrest := stored_le h.2
    have hp : p < size := by omega
    have hwide : (liveEntries (r :: rs)).length ≤ rs.length + 1 := liveEntries_length (r :: rs)
    by_cases hin : p + 7 ≤ d.cap
    · have hk31 : k < 2 ^ 31 := by omega
      obtain ⟨hinode, hrsize, hlength⟩ := @header_congr m d.data p
        fun x _ hx => hsame x (by omega) (by omega)
      rw [h.1.inode] at hinode
      rw [h.1.size] at hrsize
      rw [recordAt_length h.1] at hlength
      rw [enumMeets]
      by_cases hname : r.name = []
      · -- every index stops here
        have hend : ∀ index, Returns (fun fuel => readdirWalk d size index fuel
            (BitVec.ofNat 32 k) p) (.error .einval) := fun index =>
          returns_of_step (readdirWalk_end index fun _ => ⟨hin, by rw [hlength, hname]; rfl⟩)
        rw [if_pos hname]
        constructor
        · intro hlist
          refine ⟨hin, liveEntries_eq_nil.mp ?_⟩
          cases hes : liveEntries (r :: rs) with
          | nil => rfl
          | cons e es =>
            have hfirst := hlist.1 0 e (by rw [hes]; rfl)
            cases returns_unique hfirst (hend _)
        · intro hall
          have hnil := liveEntries_eq_nil.mpr hall.2
          rw [hnil]
          exact ⟨fun j e he => (by cases he), hend _⟩
      · have hlength' : recLength d.data p ≠ 0 := by
          rw [hlength]
          exact Nat.ne_of_gt (List.length_pos_iff.mpr hname)
        have hextent : p + recExtent d.data p = p + 8 + examined (recName d.data p) := by
          rw [recExtent, if_neg hlength', Nat.add_assoc]
        have hagree := @recName_agree d size m p r h.1 (by omega) hsame hlength
        have hentry := @readdirWalk_named d size k p hk31 hp hlength'
        rw [hinode, show BitVec.ofNat 64 r.inode.toNat = r.inode.setWidth 64 from
          BitVec.ofNat_toNat _ _] at hentry
        have hnext := @ih (k + 1) (p + r.size) (by omega) h.2
        rw [if_neg hname]
        constructor
        · intro hlist
          -- the record is returned at its index, so it is the first entry
          obtain ⟨res, n, hret⟩ := listsFrom_returns hlist
          have hinside := readdirWalk_inside hk31 rfl hp (hret (n + 1) (Nat.le_succ n))
          obtain ⟨hexamined, hcopy⟩ := hagree (Or.inl (by omega))
          have hfirst : Returns (fun fuel => readdirWalk d size (BitVec.ofNat 64 k) fuel
              (BitVec.ofNat 32 k) p) (.ok ⟨strncpyList (recName d.data p),
                r.inode.setWidth 64⟩) := returns_of_step (hentry hinside)
          cases hes : liveEntries (r :: rs) with
          | nil =>
            rw [hes] at hlist
            cases returns_unique hlist.2 hfirst
          | cons e es =>
            rw [hes] at hlist hwide
            rw [List.length_cons] at hwide
            rw [listsFrom_cons hk31 (by omega) hp hlength' hin, hrsize] at hlist
            have he := returns_unique hlist.1 hfirst
            cases he
            have hlive : r.live := by
              have hmem := @liveEntries_inode (r :: rs) _ (by rw [hes]; exact List.mem_cons_self)
              intro h0
              refine hmem ?_
              show r.inode.setWidth 64 = 0
              rw [h0]
              rfl
            rw [liveEntries_cons, if_pos hlive] at hes
            obtain ⟨hhead, htail⟩ := List.cons.inj hes
            have hclean : r.name = strncpyList (recName d.data p) := congrArg Dirent.name hhead
            refine ⟨hlive, (hclean.trans hcopy).symm, by omega, hnext.mp ?_⟩
            rw [htail]
            exact hlist.2
        · intro hmeets
          obtain ⟨hlive, hclean, hreach, hrest'⟩ := hmeets
          obtain ⟨hexamined, hcopy⟩ := hagree (Or.inr hreach)
          have hwide' := liveEntries_length rs
          have hfirst : Returns (fun fuel => readdirWalk d size (BitVec.ofNat 64 k) fuel
              (BitVec.ofNat 32 k) p) (.ok ⟨strncpyList (recName d.data p),
                r.inode.setWidth 64⟩) := returns_of_step (hentry (by omega))
          rw [hcopy, hclean] at hfirst
          rw [liveEntries_cons, if_pos hlive,
            listsFrom_cons hk31 (by omega) hp hlength' hin, hrsize]
          exact ⟨hfirst, hnext.mpr hrest'⟩
    · -- the record is not in the buffer, and no call returns
      refine iff_of_false (fun hlist => ?_) fun hmeets => ?_
      · obtain ⟨res, n, hret⟩ := listsFrom_returns hlist
        have hok := hret (n + 1) (Nat.le_succ n)
        dsimp only at hok
        rw [readdirWalk_oob hp hin] at hok
        cases hok
      · rw [enumMeets] at hmeets
        by_cases hname : r.name = []
        · rw [if_pos hname] at hmeets
          exact hin hmeets.1
        · rw [if_neg hname] at hmeets
          exact hin (by omega)

end Walk

/-! ## The calls -/

section Calls

variable {fresh : Fresh} {node : Ext2Node} {i : ByteMem} {rs : List DirRecord}

theorem enumerates_iff_meets (hi : ext2ReadInode fresh node = .ok i)
    (hdir : Directory node i rs) (hlow : DirLow node i) :
    Enumerates fresh node rs ↔ enumMeets (12 * blockBytes node.reserved) 0 rs := by
  have hcap := dirBuffer_cap hlow fresh
  have hbytes := (region_sizes (Nat.le_succ_of_le hlow.small)).bytes
  have hlists := listsFrom_iff (by omega) (ext2Size i).isLt
    (fun x hx hx' => dirBuffer_apply hdir.covered hlow fresh hx (hcap ▸ hx')) (Nat.le_refl 0)
    hdir.stored
  rw [hcap] at hlists
  rw [← hlists]
  unfold Enumerates ListsFrom
  simp only [ext2Readdir_eq hi, Nat.zero_add]
  rfl

/-- Below 4 GiB, the calls list the live entries of the directory on the volume just when every record
before the first one without a name is live, has its name to its end and is in reach, and all others
are deleted. -/
theorem enumerate_iff (hnode : InodeNode node) (hdir : Directory node (nodeInode node) rs) :
    InodeLow node ∧ DirLow node (nodeInode node) →
      (Enumerates fresh node rs ↔ enumMeets (12 * blockBytes node.reserved) 0 rs) := by
  intro h
  obtain ⟨i, hi, -, hdir', hlow⟩ := directory_read hnode h.1 hdir h.2 fresh
  exact enumerates_iff_meets hi hdir' hlow

end Calls

/-- A deleted record, and the record `a`. -/
def deletedRecords : List DirRecord :=
  [⟨0, 12, [0x78], Nat.le_of_ble_eq_true rfl⟩, ⟨6, 1012, [0x61], Nat.le_of_ble_eq_true rfl⟩]

/-- A block with them. -/
def deletedBlock : ByteMem := fun a =>
  if a = 4 then 12 else if a = 6 then 1 else if a = 8 then 0x78
  else if a = 12 then 6 else if a = 16 then 0xF4 else if a = 17 then 3 else if a = 18 then 1
  else if a = 20 then 0x61 else 0

theorem deletedBlock_stored : Stored deletedBlock 0 deletedRecords 1024 :=
  ⟨⟨by decide, by decide, by decide⟩, ⟨by decide, by decide, by decide⟩, rfl⟩

/-- The record `b`, and a deleted one without a name. -/
def keptRecords : List DirRecord :=
  [⟨6, 12, [0x62], Nat.le_of_ble_eq_true rfl⟩, ⟨0, 1012, [], Nat.le_of_ble_eq_true rfl⟩]

/-- A block with them. -/
def keptBlock : ByteMem := fun a =>
  if a = 0 then 6 else if a = 4 then 12 else if a = 6 then 1 else if a = 8 then 0x62
  else if a = 16 then 0xF4 else if a = 17 then 3 else 0

theorem keptBlock_stored : Stored keptBlock 0 keptRecords 1024 :=
  ⟨⟨by decide, by decide, by decide⟩, ⟨by decide, by decide, by decide⟩, rfl⟩

/-- The list is that of the one live entry. -/
theorem enumerate_kept : Enumerates (fun _ _ => 0) (oneBlockDir keptBlock) keptRecords := by
  have hdir := directory_congr (oneBlockDir_record keptBlock)
    (oneBlockDir_directory keptBlock keptBlock_stored)
  refine (enumerate_iff (oneBlockDir_node keptBlock) hdir ⟨oneBlockDir_inodeLow keptBlock,
    dirLow_congr (oneBlockDir_record keptBlock) (oneBlockDir_low keptBlock)⟩).mpr ?_
  have hcap : blockBytes (oneBlockDir keptBlock).reserved = 1024 := rfl
  rw [keptRecords, hcap]
  refine ⟨by decide, by decide, by decide, by decide, ?_⟩
  decide

/-- The call for 0 returns the deleted record. -/
theorem deleted_listed :
    InodeNode (oneBlockDir deletedBlock) ∧
      Directory (oneBlockDir deletedBlock) (nodeInode (oneBlockDir deletedBlock)) deletedRecords ∧
      ¬ Enumerates (fun _ _ => 0) (oneBlockDir deletedBlock) deletedRecords := by
  have hdir := oneBlockDir_directory deletedBlock deletedBlock_stored
  refine ⟨oneBlockDir_node deletedBlock, directory_congr (oneBlockDir_record deletedBlock) hdir,
    fun h => ?_⟩
  have hmeets := (enumerates_iff_meets (oneBlockDir_inode deletedBlock) hdir
    (oneBlockDir_low deletedBlock)).mp h
  rw [deletedRecords, enumMeets, if_neg (List.cons_ne_nil _ _)] at hmeets
  exact hmeets.1 rfl

end OS64.Fs
