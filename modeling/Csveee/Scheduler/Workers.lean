import Csveee.Scheduler.Run
import Mathlib.Algebra.BigOperators.Group.Finset.Piecewise
import Mathlib.Logic.Function.Basic
import Mathlib.Logic.Relation

/-!
# The worker threads

How a parallel run shares out its chunks.  Worker `t` starts on chunk `t`; whoever is done
with a chunk takes the next one off a shared counter.  The spawning thread is worker `0`,
and it stops the others through the counter when the system refuses it a thread.  Every
access to the counter is one step, and the steps of the threads come in any order.
-/

namespace Csveee.Scheduler

/-- Why a run fails ahead of the merge. -/
inductive Failure
  /-- The system refused to spawn the worker. -/
  | refused (t : ℕ)
  /-- The worker's `make_ctx` failed. -/
  | context (t : ℕ)
  deriving DecidableEq, Repr

/-- Where a worker is in `work_loop`. -/
inductive Worker
  /-- Not spawned. -/
  | idle
  /-- Ahead of `make_ctx`. -/
  | starting
  | parsing (idx : ℕ)
  /-- The slot is set; ahead of `fetch_add`. -/
  | claiming
  | finished
  | failed
  deriving DecidableEq, Repr

/-- `work_loop` has returned. -/
def Worker.Over (worker : Worker) : Prop := worker = .finished ∨ worker = .failed

/-- Where the spawning thread is in `run_with`. -/
inductive Spawner (α : Type)
  /-- Ahead of spawning worker `t`. -/
  | spawning (t : ℕ)
  /-- In its own `work_loop`. -/
  | working
  /-- Ahead of joining worker `t`; the handles end before `stop`. -/
  | joining (t stop : ℕ)
  /-- An error, or the slots as the merge gets them. -/
  | returned (result : Except Failure (List (Option α)))

structure Pool (α : Type) where
  spawner : Spawner α
  workers : ℕ → Worker
  /-- The shared counter. -/
  nextChunk : ℕ
  /-- The `WriteOnceSlot`s. -/
  slots : ℕ → Option α
  /-- The slots in the order they were set. -/
  writes : List ℕ
  errors : List Failure

namespace Pool

variable {α : Type}

def init (threadCount : ℕ) : Pool α where
  spawner := .spawning 1
  workers := fun _ => .idle
  nextChunk := threadCount
  slots := fun _ => none
  writes := []
  errors := []

def setWorker (pool : Pool α) (t : ℕ) (worker : Worker) : Pool α :=
  { pool with workers := Function.update pool.workers t worker }

/-- What joining worker `t` adds to the errors. -/
def errorOf (pool : Pool α) (t : ℕ) : List Failure :=
  if pool.workers t = .failed then [.context t] else []

/-- One step of one thread. -/
inductive Step (chunkCount threadCount : ℕ) (process : ℕ → α) : Pool α → Pool α → Prop
  | spawn {pool t} (hspawner : pool.spawner = .spawning t) (ht : t < threadCount) :
      Step chunkCount threadCount process pool
        { pool.setWorker t .starting with spawner := .spawning (t + 1) }
  /-- The running workers stop after their current chunk. -/
  | refuse {pool t} (hspawner : pool.spawner = .spawning t) (ht : t < threadCount) :
      Step chunkCount threadCount process pool
        { pool with
          spawner := .joining 1 t
          nextChunk := chunkCount
          errors := pool.errors ++ [.refused t] }
  | enter {pool} (hspawner : pool.spawner = .spawning threadCount) :
      Step chunkCount threadCount process pool
        { pool.setWorker 0 .starting with spawner := .working }
  | context {pool t} (hworker : pool.workers t = .starting) :
      Step chunkCount threadCount process pool (pool.setWorker t (.parsing t))
  | fail {pool t} (hworker : pool.workers t = .starting) :
      Step chunkCount threadCount process pool (pool.setWorker t .failed)
  | finish {pool t idx} (hworker : pool.workers t = .parsing idx) :
      Step chunkCount threadCount process pool
        { pool.setWorker t .claiming with
          slots := Function.update pool.slots idx (some (process idx))
          writes := pool.writes ++ [idx] }
  | claim {pool t} (hworker : pool.workers t = .claiming) :
      Step chunkCount threadCount process pool
        { pool.setWorker t
            (if chunkCount ≤ pool.nextChunk then .finished else .parsing pool.nextChunk) with
          nextChunk := pool.nextChunk + 1 }
  | leave {pool} (hspawner : pool.spawner = .working) (hworker : (pool.workers 0).Over) :
      Step chunkCount threadCount process pool
        { pool with
          spawner := .joining 1 threadCount
          errors := pool.errors ++ pool.errorOf 0 }
  | join {pool t stop} (hspawner : pool.spawner = .joining t stop) (ht : t < stop)
      (hworker : (pool.workers t).Over) :
      Step chunkCount threadCount process pool
        { pool with
          spawner := .joining (t + 1) stop
          errors := pool.errors ++ pool.errorOf t }
  | conclude {pool t stop} (hspawner : pool.spawner = .joining t stop) (ht : stop ≤ t) :
      Step chunkCount threadCount process pool
        { pool with
          spawner := .returned (match pool.errors with
            | error :: _ => .error error
            | [] => .ok ((List.range chunkCount).map pool.slots)) }

/-- The states a run can come to. -/
def Reachable (chunkCount threadCount : ℕ) (process : ℕ → α) (pool : Pool α) : Prop :=
  Relation.ReflTransGen (Step chunkCount threadCount process) (init threadCount) pool

/-! ## What every interleaving keeps -/

section Invariants

variable {chunkCount threadCount : ℕ} {process : ℕ → α} {pool : Pool α}

@[simp] theorem setWorker_workers (t : ℕ) (worker : Worker) (s : ℕ) :
    (pool.setWorker t worker).workers s = if s = t then worker else pool.workers s :=
  Function.update_apply _ _ _ _

/-- Every chunk has one owner: its first worker below the thread count, the counter above,
until its slot is set. -/
structure Owned (chunkCount threadCount : ℕ) (process : ℕ → α) (pool : Pool α) : Prop where
  counter : threadCount ≤ pool.nextChunk
  beyond : ∀ t, threadCount ≤ t → pool.workers t = .idle
  parsing : ∀ t idx, pool.workers t = .parsing idx → idx < chunkCount ∧ idx ∉ pool.writes ∧
    (idx = t ∨ threadCount ≤ idx ∧ idx < pool.nextChunk)
  single : ∀ t t' idx, pool.workers t = .parsing idx → pool.workers t' = .parsing idx → t = t'
  written : ∀ idx ∈ pool.writes, idx < chunkCount ∧ (threadCount ≤ idx → idx < pool.nextChunk) ∧
    (idx < threadCount → pool.workers idx ≠ .idle ∧ pool.workers idx ≠ .starting)
  nodup : pool.writes.Nodup
  slots : ∀ idx, pool.slots idx = if idx ∈ pool.writes then some (process idx) else none

theorem owned_init : (init threadCount : Pool α).Owned chunkCount threadCount process where
  counter := le_rfl
  beyond _ _ := rfl
  parsing _ _ hparsing := by cases hparsing
  single _ _ _ hparsing := by cases hparsing
  written _ hmem := by cases hmem
  nodup := List.nodup_nil
  slots _ := rfl

/-- A worker that neither parses nor is unspawned owns nothing new. -/
theorem Owned.setWorker (howned : pool.Owned chunkCount threadCount process) {t : ℕ}
    (ht : t < threadCount) (worker : Worker) (hidle : worker ≠ .idle)
    (hstarting : worker = .starting → pool.workers t = .idle)
    (hparsing : ∀ idx, worker = .parsing idx → idx < chunkCount ∧ idx ∉ pool.writes ∧
      (idx = t ∨ threadCount ≤ idx ∧ idx < pool.nextChunk) ∧
      ∀ s, pool.workers s ≠ .parsing idx) :
    (pool.setWorker t worker).Owned chunkCount threadCount process where
  counter := howned.counter
  beyond s hs := by
    rw [setWorker_workers, if_neg (by omega)]
    exact howned.beyond s hs
  parsing s idx hs := by
    rw [setWorker_workers] at hs
    split_ifs at hs with heq
    · obtain ⟨hlt, hmem, hown, -⟩ := hparsing idx hs
      exact ⟨hlt, hmem, heq ▸ hown⟩
    · exact howned.parsing s idx hs
  single s s' idx hs hs' := by
    rw [setWorker_workers] at hs hs'
    split_ifs at hs hs' with heq heq' heq'
    · rw [heq, heq']
    · exact absurd hs' ((hparsing idx hs).2.2.2 s')
    · exact absurd hs ((hparsing idx hs').2.2.2 s)
    · exact howned.single s s' idx hs hs'
  written idx hmem := by
    obtain ⟨hlt, hclaimed, hbusy⟩ := howned.written idx hmem
    refine ⟨hlt, hclaimed, fun hsmall => ?_⟩
    rw [setWorker_workers]
    split_ifs with heq
    · refine ⟨hidle, fun hstart => ?_⟩
      exact (hbusy hsmall).1 (heq ▸ hstarting hstart)
    · exact hbusy hsmall
  nodup := howned.nodup
  slots := howned.slots

/-- The counter may run ahead. -/
theorem Owned.raise (howned : pool.Owned chunkCount threadCount process) {n : ℕ}
    (hn : pool.nextChunk ≤ n) :
    ({ pool with nextChunk := n } : Pool α).Owned chunkCount threadCount process where
  counter := howned.counter.trans hn
  beyond := howned.beyond
  parsing t idx hparsing := by
    obtain ⟨hidx, hfree, hown⟩ := howned.parsing t idx hparsing
    exact ⟨hidx, hfree, hown.imp_right fun hclaimed => ⟨hclaimed.1, hclaimed.2.trans_le hn⟩⟩
  single := howned.single
  written idx hmem := by
    obtain ⟨hidx, hclaimed, hbusy⟩ := howned.written idx hmem
    exact ⟨hidx, fun hge => (hclaimed hge).trans_le hn, hbusy⟩
  nodup := howned.nodup
  slots := howned.slots

/-- A chunk's slot is set by its owner, once. -/
theorem Owned.finish (howned : pool.Owned chunkCount threadCount process) {t idx : ℕ}
    (hworker : pool.workers t = .parsing idx) :
    ({ pool.setWorker t .claiming with
      slots := Function.update pool.slots idx (some (process idx))
      writes := pool.writes ++ [idx] } : Pool α).Owned chunkCount threadCount process := by
  obtain ⟨hidx, hfree, hown⟩ := howned.parsing t idx hworker
  have ht : t < threadCount := by
    by_contra hge
    rw [howned.beyond t (by omega)] at hworker
    cases hworker
  refine ⟨howned.counter, fun s hs => ?_, fun s i hs => ?_, fun s s' i hs hs' => ?_,
    fun i hmem => ?_, ?_, fun i => ?_⟩
  · simp only [setWorker_workers]
    rw [if_neg (by omega)]
    exact howned.beyond s hs
  · simp only [setWorker_workers] at hs
    split_ifs at hs with heq
    obtain ⟨hi, hfree', hown'⟩ := howned.parsing s i hs
    refine ⟨hi, fun hmem => ?_, hown'⟩
    rcases List.mem_append.mp hmem with hmem | hmem
    · exact hfree' hmem
    · rw [List.mem_singleton.mp hmem] at hs
      exact heq (howned.single s t idx hs hworker)
  · simp only [setWorker_workers] at hs hs'
    split_ifs at hs hs' with heq heq'
    exact howned.single s s' i hs hs'
  · rcases List.mem_append.mp hmem with hmem | hmem
    · obtain ⟨hi, hclaimed, hbusy⟩ := howned.written i hmem
      refine ⟨hi, hclaimed, fun hsmall => ?_⟩
      simp only [setWorker_workers]
      split_ifs
      · exact ⟨by simp, by simp⟩
      · exact hbusy hsmall
    · rw [List.mem_singleton.mp hmem]
      refine ⟨hidx, fun hge => ?_, fun hsmall => ?_⟩
      · rcases hown with heq | hclaimed
        · omega
        · exact hclaimed.2
      · simp only [setWorker_workers]
        rw [if_pos (by omega)]
        exact ⟨by simp, by simp⟩
  · rw [List.nodup_append]
    refine ⟨howned.nodup, List.nodup_singleton _, fun a ha b hb heq => ?_⟩
    rw [heq, List.mem_singleton.mp hb] at ha
    exact hfree ha
  · simp only [Function.update_apply, List.mem_append, List.mem_singleton]
    by_cases heq : i = idx
    · rw [if_pos heq, if_pos (Or.inr heq), heq]
    · rw [if_neg heq, howned.slots]
      simp only [heq, or_false]

theorem Owned.step (hthreads : threadCount ≤ chunkCount)
    (howned : pool.Owned chunkCount threadCount process) {next : Pool α}
    (hphase : ∀ t, pool.spawner = .spawning t → pool.workers 0 = .idle ∧ pool.workers t = .idle)
    (hpos : 1 ≤ threadCount)
    (hstep : Step chunkCount threadCount process pool next) :
    next.Owned chunkCount threadCount process := by
  have hlt : ∀ t, pool.workers t ≠ .idle → t < threadCount := by
    intro t ht
    by_contra hge
    exact ht (howned.beyond t (by omega))
  cases hstep with
  | spawn hspawner ht =>
      have hset := howned.setWorker ht .starting (by simp)
        (fun _ => (hphase _ hspawner).2) (by simp)
      exact ⟨hset.counter, hset.beyond, hset.parsing, hset.single, hset.written, hset.nodup,
        hset.slots⟩
  | refuse hspawner ht =>
      refine ⟨hthreads, howned.beyond, fun t idx hparsing => ?_, howned.single, fun idx hmem => ?_,
        howned.nodup, howned.slots⟩
      · obtain ⟨hidx, hfree, hown⟩ := howned.parsing t idx hparsing
        exact ⟨hidx, hfree, hown.imp_right fun hge => ⟨hge.1, hidx⟩⟩
      · obtain ⟨hidx, -, hbusy⟩ := howned.written idx hmem
        exact ⟨hidx, fun _ => hidx, hbusy⟩
  | enter hspawner =>
      have hset := howned.setWorker hpos .starting (by simp)
        (fun _ => (hphase _ hspawner).1) (by simp)
      exact ⟨hset.counter, hset.beyond, hset.parsing, hset.single, hset.written, hset.nodup,
        hset.slots⟩
  | @context t hworker =>
      have ht := hlt t (by rw [hworker]; simp)
      refine howned.setWorker ht _ (by simp) (by simp) fun idx hidx => ?_
      cases hidx
      refine ⟨by omega, fun hmem => ?_, Or.inl rfl, fun s hs => ?_⟩
      · exact ((howned.written t hmem).2.2 ht).2 hworker
      · rcases (howned.parsing s t hs).2.2 with heq | hge
        · rw [heq, hs] at hworker
          cases hworker
        · omega
  | @fail t hworker =>
      exact howned.setWorker (hlt t (by rw [hworker]; simp)) _ (by simp) (by simp) (by simp)
  | finish hworker => exact howned.finish hworker
  | @claim t hworker =>
      have ht := hlt t (by rw [hworker]; simp)
      have hraised := howned.raise (n := pool.nextChunk + 1) (Nat.le_succ _)
      refine hraised.setWorker ht _ (by split_ifs <;> simp) (by split_ifs <;> simp)
        fun idx hidx => ?_
      split_ifs at hidx with hlast
      cases hidx
      have hcounter := howned.counter
      refine ⟨by omega, fun hmem => ?_, Or.inr ⟨hcounter, Nat.lt_succ_self _⟩, fun s hs => ?_⟩
      · exact absurd ((howned.written _ hmem).2.1 hcounter) (lt_irrefl _)
      · rcases (howned.parsing s _ hs).2.2 with heq | hclaimed
        · rw [howned.beyond s (heq ▸ hcounter)] at hs
          cases hs
        · exact absurd hclaimed.2 (lt_irrefl _)
  | leave hspawner hworker =>
      exact ⟨howned.counter, howned.beyond, howned.parsing, howned.single, howned.written,
        howned.nodup, howned.slots⟩
  | join hspawner ht hworker =>
      exact ⟨howned.counter, howned.beyond, howned.parsing, howned.single, howned.written,
        howned.nodup, howned.slots⟩
  | conclude hspawner ht =>
      exact ⟨howned.counter, howned.beyond, howned.parsing, howned.single, howned.written,
        howned.nodup, howned.slots⟩

/-- No chunk is forgotten as long as no thread is refused. -/
structure Covered (chunkCount threadCount : ℕ) (pool : Pool α) : Prop where
  first : ∀ t < threadCount, pool.workers t = .idle ∨ pool.workers t = .starting ∨
    pool.workers t = .failed ∨ pool.workers t = .parsing t ∨ t ∈ pool.writes
  claimed : (∀ t, Failure.refused t ∉ pool.errors) → ∀ idx, threadCount ≤ idx →
    idx < pool.nextChunk → idx < chunkCount →
      idx ∈ pool.writes ∨ ∃ t, pool.workers t = .parsing idx
  exhausted : ∀ t, pool.workers t = .finished → chunkCount ≤ pool.nextChunk

theorem covered_init : (init threadCount : Pool α).Covered chunkCount threadCount where
  first _ _ := Or.inl rfl
  claimed _ idx hge hlt := absurd hlt (Nat.not_lt.mpr hge)
  exhausted _ hfinished := by cases hfinished

/-- A worker that starts, or fails ahead of its first chunk, forgets none. -/
theorem Covered.setWorker (hcovered : pool.Covered chunkCount threadCount) {t : ℕ}
    {worker : Worker} (hworker : worker = .starting ∨ worker = .failed ∨ worker = .parsing t)
    (hbefore : ∀ idx, pool.workers t ≠ .parsing idx) :
    (pool.setWorker t worker).Covered chunkCount threadCount where
  first s hs := by
    rw [setWorker_workers]
    split_ifs with heq
    · rw [heq]
      exact Or.inr (hworker.imp_right fun hrest => hrest.imp_right Or.inl)
    · exact hcovered.first s hs
  claimed hnone idx hge hlt hidx := by
    rcases hcovered.claimed hnone idx hge hlt hidx with hmem | ⟨s, hs⟩
    · exact Or.inl hmem
    · refine Or.inr ⟨s, ?_⟩
      rw [setWorker_workers, if_neg]
      · exact hs
      · rintro rfl
        exact hbefore idx hs
  exhausted s hs := by
    rw [setWorker_workers] at hs
    split_ifs at hs
    · rw [hs] at hworker
      rcases hworker with hfalse | hfalse | hfalse <;> cases hfalse
    · exact hcovered.exhausted s hs

theorem Covered.finish (hcovered : pool.Covered chunkCount threadCount) {t idx : ℕ}
    (hworker : pool.workers t = .parsing idx) :
    ({ pool.setWorker t .claiming with
      slots := Function.update pool.slots idx (some (process idx))
      writes := pool.writes ++ [idx] } : Pool α).Covered chunkCount threadCount := by
  refine ⟨fun s hs => ?_, fun hnone i hge hlt hi => ?_, fun s hs => ?_⟩
  · simp only [setWorker_workers, List.mem_append, List.mem_singleton]
    have hfirst := hcovered.first s hs
    split_ifs with heq
    · subst heq
      rw [hworker] at hfirst
      simp only [reduceCtorEq, Worker.parsing.injEq, false_or] at hfirst
      exact Or.inr (Or.inr (Or.inr (Or.inr (hfirst.symm.imp_right Eq.symm))))
    · exact hfirst.imp_right (Or.imp_right (Or.imp_right (Or.imp_right Or.inl)))
  · simp only [setWorker_workers, List.mem_append, List.mem_singleton]
    rcases hcovered.claimed hnone i hge hlt hi with hmem | ⟨s, hs⟩
    · exact Or.inl (Or.inl hmem)
    · by_cases heq : s = t
      · rw [heq, hworker] at hs
        cases hs
        exact Or.inl (Or.inr rfl)
      · exact Or.inr ⟨s, by rw [if_neg heq]; exact hs⟩
  · simp only [setWorker_workers] at hs
    split_ifs at hs
    exact hcovered.exhausted s hs

theorem Covered.claim (hcovered : pool.Covered chunkCount threadCount) {t : ℕ}
    (hworker : pool.workers t = .claiming) :
    ({ pool.setWorker t
        (if chunkCount ≤ pool.nextChunk then .finished else .parsing pool.nextChunk) with
      nextChunk := pool.nextChunk + 1 } : Pool α).Covered chunkCount threadCount := by
  refine ⟨fun s hs => ?_, fun hnone i hge hlt hi => ?_, fun s hs => ?_⟩
  · have hfirst := hcovered.first s hs
    simp only [setWorker_workers]
    by_cases heq : s = t
    · subst heq
      rw [hworker] at hfirst
      simp only [reduceCtorEq, false_or] at hfirst
      exact Or.inr (Or.inr (Or.inr (Or.inr hfirst)))
    · rw [if_neg heq]
      exact hfirst
  · simp only [setWorker_workers] at hlt ⊢
    rcases Nat.lt_succ_iff_lt_or_eq.mp hlt with hlt | heq
    · rcases hcovered.claimed hnone i hge hlt hi with hmem | ⟨s, hs⟩
      · exact Or.inl hmem
      · refine Or.inr ⟨s, ?_⟩
        rw [if_neg]
        · exact hs
        · rintro rfl
          rw [hworker] at hs
          cases hs
    · refine Or.inr ⟨t, ?_⟩
      rw [if_pos rfl, if_neg (by omega), heq]
  · simp only [setWorker_workers] at hs ⊢
    split_ifs at hs with heq hlast
    · omega
    · exact (hcovered.exhausted s hs).trans (Nat.le_succ _)

/-- Where the spawning thread is tells which workers run, and which errors it knows. -/
def Phase (chunkCount threadCount : ℕ) (pool : Pool α) : Prop :=
  match pool.spawner with
  | .spawning t => pool.errors = [] ∧ 1 ≤ t ∧ t ≤ threadCount ∧ pool.workers 0 = .idle ∧
      (∀ s, t ≤ s → pool.workers s = .idle) ∧ ∀ s, 1 ≤ s → s < t → pool.workers s ≠ .idle
  | .working => pool.errors = [] ∧ ∀ s < threadCount, pool.workers s ≠ .idle
  | .joining t stop => 1 ≤ t ∧ (∀ s, 1 ≤ s → s < stop → pool.workers s ≠ .idle) ∧
      (∀ s, 1 ≤ s → s < t → (pool.workers s).Over ∧
        (pool.workers s = .failed → pool.errors ≠ [])) ∧
      ((stop = threadCount ∧ (pool.workers 0).Over ∧
          (pool.workers 0 = .failed → pool.errors ≠ [])) ∨
        (pool.errors ≠ [] ∧ pool.workers 0 = .idle ∧ ∀ s, stop ≤ s → pool.workers s = .idle))
  | .returned result => (∀ s, pool.workers s = .idle ∨ (pool.workers s).Over) ∧
      ∀ slots, result = .ok slots → pool.errors = [] ∧
        slots = (List.range chunkCount).map pool.slots ∧
        ∀ s < threadCount, pool.workers s = .finished

/-- The steps of a worker leave the spawning thread where it is. -/
theorem Phase.worker (hphase : pool.Phase chunkCount threadCount) {t : ℕ}
    (hidle : pool.workers t ≠ .idle) (hrun : ¬ (pool.workers t).Over) {next : Pool α}
    (hspawner : next.spawner = pool.spawner) (herrors : next.errors = pool.errors)
    (hworkers : ∀ s, s ≠ t → next.workers s = pool.workers s) (hspawned : next.workers t ≠ .idle) :
    next.Phase chunkCount threadCount := by
  have hkept : ∀ s, pool.workers s = .idle → next.workers s = .idle := by
    intro s hs
    rw [hworkers s (by rintro rfl; exact hidle hs)]
    exact hs
  have hover : ∀ s, (pool.workers s).Over → next.workers s = pool.workers s := by
    intro s hs
    exact hworkers s (by rintro rfl; exact hrun hs)
  have hbusy : ∀ s, pool.workers s ≠ .idle → next.workers s ≠ .idle := by
    intro s hs
    by_cases heq : s = t
    · rw [heq]
      exact hspawned
    · rw [hworkers s heq]
      exact hs
  rw [Phase] at hphase ⊢
  rw [hspawner, herrors]
  cases hat : pool.spawner with
  | spawning u =>
      simp only [hat] at hphase ⊢
      obtain ⟨hnone, hpos, hle, hzero, hrest, hearlier⟩ := hphase
      exact ⟨hnone, hpos, hle, hkept 0 hzero, fun s hs => hkept s (hrest s hs),
        fun s hs hlt => hbusy s (hearlier s hs hlt)⟩
  | working =>
      simp only [hat] at hphase ⊢
      exact ⟨hphase.1, fun s hs => hbusy s (hphase.2 s hs)⟩
  | joining u stop =>
      simp only [hat] at hphase ⊢
      obtain ⟨hpos, hhandles, hjoined, hzero⟩ := hphase
      refine ⟨hpos, fun s hs hlt => hbusy s (hhandles s hs hlt), fun s hs hlt => ?_,
        hzero.imp ?_ ?_⟩
      · rw [hover s (hjoined s hs hlt).1]
        exact hjoined s hs hlt
      · rintro ⟨hstop, hzero, hfailed⟩
        rw [hover 0 hzero]
        exact ⟨hstop, hzero, hfailed⟩
      · rintro ⟨hsome, hzero, hrest⟩
        exact ⟨hsome, hkept 0 hzero, fun s hs => hkept s (hrest s hs)⟩
  | returned result =>
      simp only [hat] at hphase
      rcases hphase.1 t with hfalse | hfalse
      · exact absurd hfalse hidle
      · exact absurd hfalse hrun

theorem Covered.step (hcovered : pool.Covered chunkCount threadCount)
    (hphase : pool.Phase chunkCount threadCount) {next : Pool α}
    (hstep : Step chunkCount threadCount process pool next) :
    next.Covered chunkCount threadCount := by
  have hmore : ∀ errors : List Failure, (∀ t, Failure.refused t ∉ pool.errors ++ errors) →
      ∀ t, Failure.refused t ∉ pool.errors :=
    fun errors hnone t hmem => hnone t (List.mem_append_left _ hmem)
  cases hstep with
  | @spawn t hspawner ht =>
      rw [Phase, hspawner] at hphase
      have hidle := hphase.2.2.2.2.1 t le_rfl
      have hset := hcovered.setWorker (Or.inl rfl) (t := t) (fun idx hidx => by
        rw [hidle] at hidx
        cases hidx)
      exact ⟨hset.first, hset.claimed, hset.exhausted⟩
  | @refuse t hspawner ht =>
      refine ⟨hcovered.first, fun hnone => ?_, fun _ _ => le_rfl⟩
      exact absurd (List.mem_append_right _ (List.mem_singleton_self _)) (hnone t)
  | enter hspawner =>
      rw [Phase, hspawner] at hphase
      have hset := hcovered.setWorker (Or.inl rfl) (t := 0) (fun idx hidx => by
        rw [hphase.2.2.2.1] at hidx
        cases hidx)
      exact ⟨hset.first, hset.claimed, hset.exhausted⟩
  | context hworker =>
      exact hcovered.setWorker (Or.inr (Or.inr rfl)) fun idx hidx => by
        rw [hworker] at hidx
        cases hidx
  | fail hworker =>
      exact hcovered.setWorker (Or.inr (Or.inl rfl)) fun idx hidx => by
        rw [hworker] at hidx
        cases hidx
  | finish hworker => exact hcovered.finish hworker
  | claim hworker => exact hcovered.claim hworker
  | leave hspawner hworker =>
      exact ⟨hcovered.first, fun hnone => hcovered.claimed (hmore _ hnone), hcovered.exhausted⟩
  | join hspawner ht hworker =>
      exact ⟨hcovered.first, fun hnone => hcovered.claimed (hmore _ hnone), hcovered.exhausted⟩
  | conclude hspawner ht => exact ⟨hcovered.first, hcovered.claimed, hcovered.exhausted⟩

theorem errorOf_ne_nil {t : ℕ} (hfailed : pool.workers t = .failed) : pool.errorOf t ≠ [] := by
  rw [errorOf, if_pos hfailed]
  simp

theorem Phase.step (hphase : pool.Phase chunkCount threadCount)
    (howned : pool.Owned chunkCount threadCount process) {next : Pool α}
    (hstep : Step chunkCount threadCount process pool next) :
    next.Phase chunkCount threadCount := by
  cases hstep with
  | @spawn t hspawner ht =>
      rw [Phase, hspawner] at hphase
      obtain ⟨hnone, hpos, -, hzero, hrest, hearlier⟩ := hphase
      refine ⟨hnone, by omega, ht, ?_, fun s hs => ?_, fun s hs hlt => ?_⟩
      · simp only [setWorker_workers]
        rw [if_neg (by omega)]
        exact hzero
      · simp only [setWorker_workers]
        rw [if_neg (by omega)]
        exact hrest s (by omega)
      · simp only [setWorker_workers]
        split_ifs with heq
        · simp
        · exact hearlier s hs (by omega)
  | @refuse t hspawner ht =>
      rw [Phase, hspawner] at hphase
      obtain ⟨-, -, -, hzero, hrest, hearlier⟩ := hphase
      exact ⟨le_rfl, hearlier, fun s hs hlt => by omega, Or.inr ⟨by simp, hzero, hrest⟩⟩
  | enter hspawner =>
      rw [Phase, hspawner] at hphase
      obtain ⟨hnone, -, -, -, -, hearlier⟩ := hphase
      refine ⟨hnone, fun s hs => ?_⟩
      simp only [setWorker_workers]
      split_ifs with heq
      · simp
      · exact hearlier s (by omega) hs
  | context hworker =>
      exact hphase.worker (by rw [hworker]; simp) (by rw [hworker]; simp [Worker.Over]) rfl rfl
        (fun s hs => by rw [setWorker_workers, if_neg hs]) (by simp)
  | fail hworker =>
      exact hphase.worker (by rw [hworker]; simp) (by rw [hworker]; simp [Worker.Over]) rfl rfl
        (fun s hs => by rw [setWorker_workers, if_neg hs]) (by simp)
  | finish hworker =>
      exact hphase.worker (by rw [hworker]; simp) (by rw [hworker]; simp [Worker.Over]) rfl rfl
        (fun s hs => by simp only [setWorker_workers, if_neg hs]) (by simp)
  | claim hworker =>
      exact hphase.worker (by rw [hworker]; simp) (by rw [hworker]; simp [Worker.Over]) rfl rfl
        (fun s hs => by simp only [setWorker_workers, if_neg hs])
        (by simp only [setWorker_workers, if_pos]; split_ifs <;> simp)
  | leave hspawner hworker =>
      rw [Phase, hspawner] at hphase
      exact ⟨le_rfl, fun s _ hlt => hphase.2 s hlt, fun s hs hlt => by omega,
        Or.inl ⟨rfl, hworker, fun hfailed =>
          List.append_ne_nil_of_right_ne_nil _ (errorOf_ne_nil hfailed)⟩⟩
  | @join t stop hspawner ht hworker =>
      rw [Phase, hspawner] at hphase
      obtain ⟨hpos, hhandles, hjoined, hzero⟩ := hphase
      have hmore : pool.errors ≠ [] → pool.errors ++ pool.errorOf t ≠ [] :=
        fun hsome => List.append_ne_nil_of_left_ne_nil hsome _
      refine ⟨by omega, hhandles, fun s hs hle => ?_, hzero.imp ?_ ?_⟩
      · rcases Nat.lt_succ_iff_lt_or_eq.mp hle with hlt | rfl
        · exact ⟨(hjoined s hs hlt).1, fun hfailed => hmore ((hjoined s hs hlt).2 hfailed)⟩
        · exact ⟨hworker, fun hfailed =>
            List.append_ne_nil_of_right_ne_nil _ (errorOf_ne_nil hfailed)⟩
      · rintro ⟨hstop, hzero, hfailed⟩
        exact ⟨hstop, hzero, fun h => hmore (hfailed h)⟩
      · rintro ⟨hsome, hzero, hrest⟩
        exact ⟨hmore hsome, hzero, hrest⟩
  | @conclude t stop hspawner ht =>
      rw [Phase, hspawner] at hphase
      obtain ⟨-, -, hjoined, hzero⟩ := hphase
      have hlater : ∀ s, t ≤ s → pool.workers s = .idle := by
        intro s hs
        rcases hzero with ⟨hstop, -⟩ | ⟨-, -, hrest⟩
        · exact howned.beyond s (by omega)
        · exact hrest s (by omega)
      refine ⟨fun s => ?_, fun slots hslots => ?_⟩
      · rcases Nat.eq_zero_or_pos s with rfl | hpos
        · rcases hzero with ⟨-, hover, -⟩ | ⟨-, hidle, -⟩
          · exact Or.inr hover
          · exact Or.inl hidle
        · by_cases hs : s < t
          · exact Or.inr (hjoined s hpos hs).1
          · exact Or.inl (hlater s (Nat.not_lt.mp hs))
      · cases herrors : pool.errors with
        | cons error rest =>
            rw [herrors] at hslots
            cases hslots
        | nil =>
            rw [herrors] at hslots
            cases hslots
            rcases hzero with ⟨rfl, hover, hfailed⟩ | ⟨hsome, -⟩
            · refine ⟨rfl, rfl, fun s hs => ?_⟩
              rcases Nat.eq_zero_or_pos s with rfl | hpos
              · exact hover.resolve_right fun h => hfailed h herrors
              · obtain ⟨hsover, hsfailed⟩ := hjoined s hpos (by omega)
                exact hsover.resolve_right fun h => hsfailed h herrors
            · exact absurd herrors hsome

/-- Every state a run comes to keeps the invariants. -/
theorem Reachable.keeps (hpos : 1 ≤ threadCount) (hthreads : threadCount ≤ chunkCount)
    (hreach : Reachable chunkCount threadCount process pool) :
    pool.Owned chunkCount threadCount process ∧ pool.Covered chunkCount threadCount ∧
      pool.Phase chunkCount threadCount := by
  induction hreach with
  | refl =>
      exact ⟨owned_init, covered_init, rfl, le_rfl, hpos, rfl, fun _ _ => rfl,
        fun s hs hlt => by omega⟩
  | tail _ hstep ih =>
      obtain ⟨howned, hcovered, hphase⟩ := ih
      refine ⟨howned.step hthreads (fun t ht => ?_) hpos hstep, hcovered.step hphase hstep,
        hphase.step howned hstep⟩
      rw [Phase, ht] at hphase
      exact ⟨hphase.2.2.2.1, hphase.2.2.2.2.1 t le_rfl⟩

/-! ## Runs end -/

end Invariants

end Pool

/-! ## The chunks of a job -/

namespace Job

variable {σ : Type} (job : Job σ)

end Job

end Csveee.Scheduler
