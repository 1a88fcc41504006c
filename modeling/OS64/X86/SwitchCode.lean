import OS64.X86.Timer

/-!
# Machine code for `task_switch`

A straight translation of `task_switch` to the processor, for a task that is not
starting: copy the frame, set the state, follow `next`, set `curr[id]` and return.
`switchCode_ok` says that it is code for the C function in the sense of
`TaskSwitchCode`.
-/

namespace OS64.X86

open OS64.Lib OS64.Lib.X86 OS64.Kernel

variable (img : TimerImage)

/-- `memcpy(&cur->r, r, sizeof(all_regs)); cur->state = TASK_ACTIVE`. -/
def saveBytes (m : ByteMem) (cur r : Addr) : ByteMem :=
  (m.copy (regsAddr cur).toNat r.toNat 120).write (cur + BitVec.ofNat 64 144).toNat 1 0

/-- `task_switch`; `fuel` bounds the search for the next task. -/
def switchCode (fuel : Nat) (c : Cpu) : Cpu :=
  let m := saveBytes c.mem (img.cur c.mem) (c.reg .rdi)
  match walk (fun b => quad m b 136) (fun b => stateAt m b == taskActive) fuel (img.cur c.mem) with
  | none => c
  | some n =>
    (({ c with mem := st m (img.curr + BitVec.ofNat 64 (8 * img.id.val)) n }).set .rax
      (regsAddr n)).ret

variable {img} {m : ByteMem} {cur r : Addr}

/-- Only the frame and the state of the task `cur` are written. -/
theorem saveBytes_apply_out (hcur : cur ∈ img.tasks) {x : Nat}
    (hx : ¬ (cur.toNat + 8 ≤ x ∧ x < cur.toNat + 128) ∧ x ≠ cur.toNat + 144) :
    saveBytes m cur r x = m x := by
  have hfits := img.task_fits cur hcur
  have hregs := regsAddr_toNat hfits
  unfold sizeofTask at hfits
  have hstate := add_toNat (a := cur) (n := 144) (by omega)
  unfold saveBytes
  rw [ByteMem.write_apply_out (by omega), ByteMem.copy_apply_out (by omega)]

/-- The task `cur` with its new frame and state; the other tasks as they were. -/
theorem saveBytes_taskAt (hcur : cur ∈ img.tasks) (hr : r.toNat + 120 ≤ 2 ^ 64) :
    taskAt (saveBytes m cur r) cur =
      { taskAt m cur with r := allRegsAt m r, state := taskActive } ∧
    ∀ a ∈ img.tasks, a ≠ cur → taskAt (saveBytes m cur r) a = taskAt m a := by
  have hfits := img.task_fits cur hcur
  have hregs := regsAddr_toNat hfits
  constructor
  · unfold sizeofTask at hfits
    have hstate := add_toNat (a := cur) (n := 144) (by omega)
    have hquad : ∀ n, n + 8 ≤ 285 → n = 0 ∨ n = 136 ∨ 149 ≤ n →
        quad (saveBytes m cur r) cur n = quad m cur n := fun n hn hcase =>
      quad_congr (by omega) fun x hx hx' => saveBytes_apply_out hcur (by omega)
    -- the frame is copied before the state is written, and the two do not meet
    have hframe : ∀ n, n ≤ 112 → quad (saveBytes m cur r) (regsAddr cur) n = quad m r n := by
      intro n hn
      have hdst := add_toNat (a := regsAddr cur) (n := n) (by omega)
      have hsrc := add_toNat (a := r) (n := n) (by omega)
      unfold quad ld
      rw [hdst, hsrc, saveBytes, ByteMem.read_write_disjoint (by omega),
        ByteMem.read_copy_same 8 n (by omega)]
    have hregsAt : allRegsAt (saveBytes m cur r) (regsAddr cur) = allRegsAt m r := by
      unfold allRegsAt
      rw [hframe 0 (by omega), hframe 8 (by omega), hframe 16 (by omega), hframe 24 (by omega),
        hframe 32 (by omega), hframe 40 (by omega), hframe 48 (by omega), hframe 56 (by omega),
        hframe 64 (by omega), hframe 72 (by omega), hframe 80 (by omega), hframe 88 (by omega),
        hframe 96 (by omega), hframe 104 (by omega), hframe 112 (by omega)]
    have hst : stateAt (saveBytes m cur r) cur = taskActive := by
      unfold stateAt saveBytes
      rw [ByteMem.write, if_pos (by omega)]
      simp [taskActive]
    have hfiles : ∀ i : Fin maxOpenFiles,
        quad (saveBytes m cur r) cur (157 + 8 * i.val) = quad m cur (157 + 8 * i.val) := by
      intro i
      have hi : i.val < 16 := i.isLt
      exact hquad _ (by omega) (by omega)
    unfold taskAt
    rw [hquad 0 (by omega) (by omega), hregsAt, hquad 136 (by omega) (by omega), hst,
      hquad 149 (by omega) (by omega)]
    simp only [hfiles]
  · intro a ha hne
    have hapart := img.tasks_apart a ha cur hcur hne
    unfold Apart at hapart
    refine taskAt_congr (img.task_fits a ha) fun x hx hx' => saveBytes_apply_out hcur ?_
    unfold sizeofTask at hapart hx'
    omega

/-- `switchCode` is code for `task_switch` called by the stub, when the current task is
one of a ring of tasks, is not starting, and the search ends within the fuel. -/
theorem switchCode_ok {fuel : Nat} {c : Cpu} {n : Addr} (hcur : img.cur c.mem ∈ img.tasks)
    (hstate : (taskAt c.mem (img.cur c.mem)).state ≠ taskStarting)
    (hnext : ∀ a ∈ img.tasks, (taskAt c.mem a).next ∈ img.tasks)
    (hsp : img.ist.toNat - 128 ≤ c.sp.toNat) (hsp' : c.sp.toNat + 8 ≤ img.ist.toNat)
    (hrdi : (c.reg .rdi).toNat + 120 ≤ 2 ^ 64)
    (hwalk : walk (fun b => (taskAt c.mem b).next)
      (fun b => b == img.cur c.mem || (taskAt c.mem b).state == taskActive) fuel
      (img.cur c.mem) = some n) :
    TaskSwitchCode img c (switchCode img fuel c) := by
  have hcur0 : img.cur c.mem ≠ 0 := fun h0 => img.task_nonnull (h0 ▸ hcur)
  obtain ⟨hsaved, hothers⟩ := saveBytes_taskAt (m := c.mem) (r := c.reg .rdi) hcur hrdi
  have hcfits := img.curr_fits
  have hid : img.id.val < 16 := img.id.isLt
  unfold maxCpuNr at hcfits
  have hslot := add_toNat (a := img.curr) (n := 8 * img.id.val) (by omega)
  -- In memory as in the record, the search runs over the same tasks.
  have hheap : ∀ a ∈ img.tasks, taskAt (saveBytes c.mem (img.cur c.mem) (c.reg .rdi)) a =
      (saveCurrent (img.tasksAt c.mem) (img.cur c.mem) (allRegsAt c.mem (c.reg .rdi))).heap a := by
    intro a ha
    show _ = (if a = img.cur c.mem then _ else _)
    by_cases hac : a = img.cur c.mem
    · rw [if_pos hac, hac, hsaved]
      rfl
    · rw [if_neg hac, hothers a ha hac]
      rfl
  have hnexts : ∀ a ∈ img.tasks, quad (saveBytes c.mem (img.cur c.mem) (c.reg .rdi)) a 136 =
      (taskAt c.mem a).next := by
    intro a ha
    by_cases hac : a = img.cur c.mem
    · rw [← taskAt_next, hac, hsaved]
    · rw [← taskAt_next, hothers a ha hac]
  have hstates : ∀ a ∈ img.tasks, stateAt (saveBytes c.mem (img.cur c.mem) (c.reg .rdi)) a =
      if a = img.cur c.mem then taskActive else (taskAt c.mem a).state := by
    intro a ha
    by_cases hac : a = img.cur c.mem
    · rw [if_pos hac, ← taskAt_state, hac, hsaved]
    · rw [if_neg hac, ← taskAt_state, hothers a ha hac]
  have hwalk' : walk (fun b => quad (saveBytes c.mem (img.cur c.mem) (c.reg .rdi)) b 136)
      (fun b => stateAt (saveBytes c.mem (img.cur c.mem) (c.reg .rdi)) b == taskActive) fuel
      (img.cur c.mem) = some n := by
    rw [← hwalk]
    refine walk_congr (S := (· ∈ img.tasks)) hnext ?_ ?_ fuel hcur
    · exact hnexts
    · intro a ha
      simp only [hstates a ha]
      by_cases hac : a = img.cur c.mem
      · simp [hac]
      · simp [hac]
  have hcode : switchCode img fuel c =
      (({ c with
          mem := st (saveBytes c.mem (img.cur c.mem) (c.reg .rdi))
            (img.curr + BitVec.ofNat 64 (8 * img.id.val)) n }).set .rax (regsAddr n)).ret := by
    simp only [switchCode]
    rw [hwalk']
  have hfits := img.task_fits _ hcur
  have hstack := img.task_stack _ hcur
  have hcstack := img.curr_stack
  have hroom := img.ist_room
  unfold Apart sizeofTask at hstack
  unfold Apart maxCpuNr at hcstack
  unfold sizeofTask at hfits
  have hmem : ∀ x, ¬ ((img.cur c.mem).toNat ≤ x ∧ x < (img.cur c.mem).toNat + 285) →
      ¬ (img.curr.toNat + 8 * img.id.val ≤ x ∧ x < img.curr.toNat + 8 * img.id.val + 8) →
      st (saveBytes c.mem (img.cur c.mem) (c.reg .rdi))
        (img.curr + BitVec.ofNat 64 (8 * img.id.val)) n x = c.mem x := by
    intro x hx hx'
    rw [st_apply_out (by rw [hslot]; omega)]
    exact saveBytes_apply_out hcur (by omega)
  have htask : ∀ a ∈ img.tasks, taskAt (st (saveBytes c.mem (img.cur c.mem) (c.reg .rdi))
      (img.curr + BitVec.ofNat 64 (8 * img.id.val)) n) a =
      taskAt (saveBytes c.mem (img.cur c.mem) (c.reg .rdi)) a := by
    intro a ha
    have hapart := img.task_curr a ha
    unfold Apart maxCpuNr at hapart
    refine taskAt_congr (img.task_fits a ha) fun x hx hx' => st_apply_out ?_
    rw [hslot]
    omega
  have hcurrAt : ∀ j : Fin maxCpuNr, img.currAt (st (saveBytes c.mem (img.cur c.mem) (c.reg .rdi))
      (img.curr + BitVec.ofNat 64 (8 * img.id.val)) n) j =
      if j = img.id then n else img.currAt c.mem j := by
    intro j
    by_cases hj : j = img.id
    · rw [if_pos hj, hj]
      exact ld_st_same _ _ _
    · have hjlt : j.val < 16 := j.isLt
      have hne : j.val ≠ img.id.val := fun h => hj (Fin.ext h)
      have hapart := img.task_curr _ hcur
      unfold Apart maxCpuNr sizeofTask at hapart
      rw [if_neg hj]
      refine quad_congr (by omega) fun x hx hx' => ?_
      rw [st_apply_out (by rw [hslot]; omega)]
      exact saveBytes_apply_out hcur (by omega)
  rw [hcode]
  generalize st (saveBytes c.mem (img.cur c.mem) (c.reg .rdi))
    (img.curr + BitVec.ofNat 64 (8 * img.id.val)) n = m' at *
  refine ⟨⟨?_, rfl, ?_, ?_⟩, ⟨fuel, (saveCurrent (img.tasksAt c.mem) (img.cur c.mem)
    (allRegsAt c.mem (c.reg .rdi))).setCurr img.id n, ?_, ?_, ?_⟩, ?_⟩
  · show ld m' c.sp = ld c.mem c.sp
    exact ld_congr fun x hx hx' => hmem x (by omega) (by omega)
  · intro r hr
    have hne : r ≠ .rsp ∧ r ≠ .rax := by
      revert hr
      cases r <;> decide
    rw [Cpu.ret_reg, if_neg hne.1, Cpu.set_reg, if_neg hne.2]
  · intro x hx hx'
    exact hmem x (by omega) (by omega)
  · exact taskSwitch_of_nextActive hcur0 hstate
      ((nextActive_eq_walk (img.tasksAt c.mem) _ _ fuel).trans hwalk)
  · intro a ha
    show taskAt m' a = _
    rw [htask a ha, hheap a ha]
    rfl
  · intro j
    exact hcurrAt j
  · have hapart := img.task_lapicVar _ hcur
    have hvar := img.lapicVar_curr
    unfold Apart sizeofTask at hapart
    unfold Apart maxCpuNr at hvar
    show ld m' _ = _
    exact ld_congr fun x hx hx' => hmem x (by omega) (by omega)

/-- It leaves `r10` and `r11` alone. -/
theorem switchCode_scratch {fuel : Nat} {c : Cpu} {r : Reg} (hr : r ∈ [Reg.r10, .r11]) :
    (switchCode img fuel c).reg r = c.reg r := by
  have hne : r ≠ .rsp ∧ r ≠ .rax := by
    revert hr
    cases r <;> decide
  simp only [switchCode]
  split
  · rfl
  · rw [Cpu.ret_reg, if_neg hne.1, Cpu.set_reg, if_neg hne.2]

end OS64.X86
