import Mathlib.Data.List.AList
import NixGrpcStore.Sched.FreeIndex
import NixGrpcStore.Sched.IndexedHeap

/-!
# Queues and free slots per system

The core keeps one queue and one free-slot index per system, in a map that `sys` extends on
demand.  What the core's proofs need of it are two partial functions: `key`, the queue key of a
derivation under a system, and `free`, the slot count of a worker there.
-/

namespace NixGrpcStore.Sched

/-- Queue and free-slot index of one system. -/
structure SystemState where
  queue : IndexedHeap ℚ := .empty
  /-- A worker sits in each of its systems' index with the same count. -/
  free : FreeIndex := .empty

/-- The states of all systems known so far. -/
abbrev Systems := AList fun _ : String => SystemState

namespace Systems

/-- The queue key of a derivation under a system. -/
def key (sy : Systems) (name : String) (drv : DrvId) : Option ℚ :=
  (sy.lookup name).bind fun st => st.queue.key drv

/-- The slot count of a worker in the index of a system. -/
def free (sy : Systems) (name : String) (wid : WorkerId) : Option ℤ :=
  (sy.lookup name).bind fun st => st.free.value wid

/-- The state of a system, created on first use. -/
def sys (sy : Systems) (name : String) : SystemState := (sy.lookup name).getD {}

/-- Store the state of a system. -/
def put (sy : Systems) (name : String) (st : SystemState) : Systems := sy.insert name st

/-- Forget a system. -/
def drop (sy : Systems) (name : String) : Systems := sy.erase name

/-- `sys(name).queue.set(drv, key)` -/
def setKey (sy : Systems) (name : String) (drv : DrvId) (key : ℚ) : Except Error Systems := do
  let queue ← (sy.sys name).queue.set drv key
  pure (sy.put name { sy.sys name with queue })

/-- `sys(name).queue.erase(drv)` -/
def eraseKey (sy : Systems) (name : String) (drv : DrvId) : Except Error Systems := do
  let queue ← (sy.sys name).queue.erase drv
  pure (sy.put name { sy.sys name with queue })

/-- `sys(name).free.push(wid)`, for workers numbered without a bound -/
def push (sy : Systems) (name : String) (wid : WorkerId) : Except Error Systems := do
  let free ← (sy.sys name).free.track wid
  pure (sy.put name { sy.sys name with free })

/-- `sys(name).free.set(wid, val)` -/
def setFree (sy : Systems) (name : String) (wid : WorkerId) (val : ℤ) : Except Error Systems := do
  let free ← (sy.sys name).free.set wid val
  pure (sy.put name { sy.sys name with free })

/-- Make a worker known to every system it lists. -/
def pushAll (sy : Systems) (wid : WorkerId) : List String → Except Error Systems
  | [] => .ok sy
  | name :: names => do (← sy.push name wid).pushAll wid names

/-- Give a worker one slot count in every system it lists. -/
def setFreeAll (sy : Systems) (wid : WorkerId) (val : ℤ) : List String → Except Error Systems
  | [] => .ok sy
  | name :: names => do (← sy.setFree name wid val).setFreeAll wid val names

variable {sy : Systems} {name : String}

@[simp] theorem key_empty (name : String) (drv : DrvId) : key ∅ name drv = none := by
  simp [key]

@[simp] theorem free_empty (name : String) (wid : WorkerId) : free ∅ name wid = none := by
  simp [free]

theorem key_eq_sys (sy : Systems) (name : String) (drv : DrvId) :
    sy.key name drv = (sy.sys name).queue.key drv := by
  unfold key sys
  cases sy.lookup name <;> simp

theorem free_eq_sys (sy : Systems) (name : String) (wid : WorkerId) :
    sy.free name wid = (sy.sys name).free.value wid := by
  unfold free sys
  cases sy.lookup name <;> simp

theorem sys_put (sy : Systems) (name : String) (st : SystemState) (other : String) :
    (sy.put name st).sys other = if other = name then st else sy.sys other := by
  by_cases other_name : other = name
  · subst other_name
    simp [sys, put]
  · simp [sys, put, other_name, AList.lookup_insert_ne other_name]

theorem sys_drop (sy : Systems) (name other : String) :
    (sy.drop name).sys other = if other = name then {} else sy.sys other := by
  by_cases other_name : other = name
  · subst other_name
    simp [sys, drop]
  · simp [sys, drop, other_name, AList.lookup_erase_ne other_name]

/-- Only the key of one derivation under one system changed. -/
structure Rekeyed (sy next : Systems) (name : String) (drv : DrvId) (newKey : Option ℚ) :
    Prop where
  key_eq : ∀ other id, next.key other id =
    if other = name ∧ id = drv then newKey else sy.key other id
  free_eq : ∀ other wid, next.free other wid = sy.free other wid
  mem_iff : ∀ other, other ∈ next ↔ other = name ∨ other ∈ sy

private theorem rekeyed_put {queue : IndexedHeap ℚ} {drv : DrvId} {newKey : Option ℚ}
    (queue_eq : queue.key = Function.update (sy.sys name).queue.key drv newKey) :
    Rekeyed sy (sy.put name { sy.sys name with queue }) name drv newKey where
  key_eq other id := by
    rw [key_eq_sys, key_eq_sys, sys_put]
    by_cases other_name : other = name
    · by_cases id_drv : id = drv <;> simp [other_name, queue_eq, id_drv]
    · simp [other_name]
  free_eq other wid := by
    rw [free_eq_sys, free_eq_sys, sys_put]
    by_cases other_name : other = name <;> simp [other_name]
  mem_iff other := AList.mem_insert sy

theorem setKey_ok (sy : Systems) (name : String) {drv : DrvId} (drv_ne : drv ≠ IndexedHeap.npos)
    (newKey : ℚ) :
    ∃ next, sy.setKey name drv newKey = .ok next ∧ Rekeyed sy next name drv (some newKey) := by
  obtain ⟨queue, queue_eq, queue_key⟩ := (sy.sys name).queue.set_ok drv_ne newKey
  refine ⟨sy.put name { sy.sys name with queue }, ?_, rekeyed_put queue_key⟩
  rw [setKey, queue_eq]
  rfl

theorem eraseKey_ok (sy : Systems) (name : String) (drv : DrvId) :
    ∃ next, sy.eraseKey name drv = .ok next ∧ Rekeyed sy next name drv none := by
  obtain ⟨queue, queue_eq, queue_key, -⟩ := (sy.sys name).queue.erase_ok drv
  refine ⟨sy.put name { sy.sys name with queue }, ?_, rekeyed_put queue_key⟩
  rw [eraseKey, queue_eq]
  rfl

/-- Only the slot counts of one worker changed, and only in the given systems. -/
structure Recounted (sy next : Systems) (wid : WorkerId) (names : List String)
    (count : String → Option ℤ) : Prop where
  key_eq : ∀ other id, next.key other id = sy.key other id
  free_eq : ∀ other id, next.free other id =
    if id = wid ∧ other ∈ names then count other else sy.free other id
  mem_iff : ∀ other, other ∈ next ↔ other ∈ names ∨ other ∈ sy

private theorem recounted_put {idx : FreeIndex} {wid : WorkerId} {count : String → Option ℤ}
    (idx_eq : idx.value = Function.update (sy.sys name).free.value wid (count name)) :
    Recounted sy (sy.put name { sy.sys name with free := idx }) wid [name] count where
  key_eq other id := by
    rw [key_eq_sys, key_eq_sys, sys_put]
    by_cases other_name : other = name <;> simp [other_name]
  free_eq other id := by
    rw [free_eq_sys, free_eq_sys, sys_put]
    by_cases other_name : other = name
    · by_cases id_wid : id = wid <;> simp [other_name, idx_eq, id_wid]
    · simp [other_name]
  mem_iff other := by simp [put, AList.mem_insert]

private theorem Recounted.cons {first second third : Systems} {wid : WorkerId} {names : List String}
    {count : String → Option ℤ} (head : Recounted first second wid [name] count)
    (tail : Recounted second third wid names count) :
    Recounted first third wid (name :: names) count where
  key_eq other id := (tail.key_eq other id).trans (head.key_eq other id)
  free_eq other id := by
    rw [tail.free_eq, head.free_eq]
    by_cases id_wid : id = wid
    · by_cases listed : other ∈ names <;> simp [id_wid, listed]
    · simp [id_wid]
  mem_iff other := by
    rw [tail.mem_iff, head.mem_iff]
    simp [or_assoc, or_left_comm]

/-- A worker pushed to its systems keeps the counts it has and otherwise starts at zero. -/
theorem pushAll_ok (sy : Systems) (wid : WorkerId) (names : List String) :
    ∃ next, sy.pushAll wid names = .ok next ∧
      Recounted sy next wid names fun other => some ((sy.free other wid).getD 0) := by
  induction names generalizing sy with
  | nil =>
    exact ⟨sy, rfl, fun _ _ => rfl, fun _ _ => by simp, fun _ => by simp⟩
  | cons name names ih =>
    obtain ⟨idx, idx_eq, idx_value⟩ := (sy.sys name).free.track_ok wid
    have head : Recounted sy (sy.put name { sy.sys name with free := idx }) wid [name]
        fun other => some ((sy.free other wid).getD 0) := by
      apply recounted_put
      rw [idx_value, free_eq_sys]
    obtain ⟨next, next_eq, tail⟩ := ih (sy.put name { sy.sys name with free := idx })
    have pushed : sy.push name wid = .ok (sy.put name { sy.sys name with free := idx }) := by
      rw [push, idx_eq]
      rfl
    refine ⟨next, ?_, head.cons ?_⟩
    · rw [pushAll, pushed]
      exact next_eq
    · have same : ∀ other, (Systems.free (sy.put name { sy.sys name with free := idx })
          other wid).getD 0 = (sy.free other wid).getD 0 := by
        intro other
        rw [head.free_eq]
        by_cases other_name : other = name <;> simp [other_name]
      simpa only [same] using tail

/-- The counts of a worker known to all its systems can be replaced. -/
theorem setFreeAll_ok (sy : Systems) (wid : WorkerId) (val : ℤ) (names : List String)
    (known : ∀ name ∈ names, (sy.free name wid).isSome) :
    ∃ next, sy.setFreeAll wid val names = .ok next ∧
      Recounted sy next wid names fun _ => some val := by
  induction names generalizing sy with
  | nil =>
    exact ⟨sy, rfl, fun _ _ => rfl, fun _ _ => by simp, fun _ => by simp⟩
  | cons name names ih =>
    have known_name : ((sy.sys name).free.value wid).isSome := by
      rw [← free_eq_sys]
      exact known name List.mem_cons_self
    obtain ⟨idx, idx_eq, idx_value⟩ := (sy.sys name).free.set_ok known_name val
    have head : Recounted sy (sy.put name { sy.sys name with free := idx }) wid [name]
        fun _ => some val := recounted_put idx_value
    obtain ⟨next, next_eq, tail⟩ := ih (sy.put name { sy.sys name with free := idx }) (by
      intro other listed
      rw [head.free_eq]
      by_cases other_name : other = name
      · simp [other_name]
      · simpa [other_name] using known other (List.mem_cons_of_mem name listed))
    have counted : sy.setFree name wid val =
        .ok (sy.put name { sy.sys name with free := idx }) := by
      rw [setFree, idx_eq]
      rfl
    refine ⟨next, ?_, head.cons tail⟩
    rw [setFreeAll, counted]
    exact next_eq

theorem mem_of_key {drv : DrvId} (queued : (sy.key name drv).isSome) : name ∈ sy := by
  rw [← AList.lookup_isSome]
  unfold key at queued
  cases lookup_eq : sy.lookup name with
  | none => simp [lookup_eq] at queued
  | some st => rfl

/-- Dropping a system whose queue is empty loses its slot counts only. -/
theorem key_drop (empty : ∀ drv, sy.key name drv = none) (other : String) (drv : DrvId) :
    (sy.drop name).key other drv = sy.key other drv := by
  by_cases other_name : other = name
  · subst other_name
    rw [key_eq_sys, sys_drop, if_pos rfl, empty]
    exact IndexedHeap.key_empty drv
  · rw [key_eq_sys, sys_drop, if_neg other_name, ← key_eq_sys]

theorem free_drop (sy : Systems) (name other : String) (wid : WorkerId) :
    (sy.drop name).free other wid = if other = name then none else sy.free other wid := by
  rw [free_eq_sys, sys_drop]
  by_cases other_name : other = name
  · simp [other_name]
  · rw [if_neg other_name, if_neg other_name, ← free_eq_sys]

end Systems

end NixGrpcStore.Sched
