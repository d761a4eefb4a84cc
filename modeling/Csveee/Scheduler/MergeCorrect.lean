import Csveee.Lib.Sequential
import Csveee.Scheduler.Merge

/-!
# The merge yields the sequential parse

Whatever the passes of the chunks speculate on, if they are truthful about the
boundaries they start from, the merge follows the sequential parse: it never
leaves it, and it reaches the end if no chunk the pending boundary lies in has
come out without a pass.
-/

namespace Csveee.Scheduler

variable {ρ ε : Type}

/-- What the chunks speculate about. -/
structure Speculation (ρ ε : Type) where
  seq : Sequential ρ ε
  chunkSize : ℕ
  /-- The chunks that have come out with a pass. -/
  HasPass : ℕ → Prop
  /-- The errors a parse from an offset up to a chunk's end may report. -/
  Fails : ℕ → ℕ → Error → Prop

namespace Speculation

variable (spec : Speculation ρ ε)

def stop (k : ℕ) : ℕ := min ((k + 1) * spec.chunkSize) spec.seq.len

/-- The passes of the `k`-th chunk tell what a parse from their starts up to the
chunk's end would tell. -/
structure Truthful (k : ℕ) (output : ChunkOutput (List ρ)) : Prop where
  hasPass : output.passes ≠ [] → spec.HasPass k
  ok : ∀ pass ∈ output.passes, ∀ records, pass.result = .ok records →
    ∃ next, spec.seq.body pass.recordStart (spec.stop k) = .ok (records, next) ∧
      (spec.stop k < spec.seq.len → next = output.recordEnd)
  error : ∀ pass ∈ output.passes, ∀ err, pass.result = .error err →
    spec.Fails k pass.recordStart err

/-- The passes of a later chunk speculate on where in the chunk a record starts. -/
structure Speculative (k : ℕ) (output : ChunkOutput (List ρ)) : Prop
    extends spec.Truthful k output where
  inside : ∀ pass ∈ output.passes,
    k * spec.chunkSize ≤ pass.recordStart ∧ pass.recordStart < spec.stop k

/-- The reparse callback parses from the boundary it is given. -/
def Reparses (reparse : Reparse (List ρ)) : Prop :=
  ∀ k p, p ≤ spec.stop k →
    match reparse p ((k + 1) * spec.chunkSize) with
    | .ok (records, offset) => ∃ next, spec.seq.body p (spec.stop k) = .ok (records, next) ∧
        (spec.stop k < spec.seq.len → next = offset.map (p + ·))
    | .error err => spec.Fails k p err

/-- The states merged so far hold the records up to the end `c` of a chunk with a pass,
and the merge expects the boundary that comes after them. -/
structure Reached (base c : ℕ) (records : List ρ) (next : Option ℕ) : Prop where
  base_le : base ≤ c
  chunk : ∃ i, c = spec.stop i ∧ spec.HasPass i
  body : ∃ next', spec.seq.body base c = .ok (records, next') ∧
    (c < spec.seq.len → next' = next)

/-- The merge reports an error of a chunk with a pass, met from the first boundary or
from one the sequential parse hands over. -/
inductive Failed (base : ℕ) (err : Error) : Prop
  | first (k : ℕ) (hbase : base ≤ spec.stop k) (hpass : spec.HasPass k)
      (hfails : spec.Fails k base err)
  | later (k c q : ℕ) (records : List ρ) (hbase : base ≤ c) (hc : c ≤ spec.stop k)
      (hbody : spec.seq.body base c = .ok (records, some q)) (hq : q ≤ spec.stop k)
      (hpass : spec.HasPass k) (hfails : spec.Fails k q err)

/-- What the merge comes to on the chunks from the `k`-th one on, having reached the
chunk end `c` and the boundary `next`: it stops where every chunk left has no pass
or ends before the boundary. -/
def Merged (base k c : ℕ) (next : Option ℕ) (outputs : List (ChunkOutput (List ρ))) :
    Except Error (List (List ρ)) → Prop
  | .ok states => ∃ c' next', spec.Reached base c' states.flatten next' ∧
      ((c' = c ∧ next' = next) ∨ k * spec.chunkSize < c') ∧
      ∀ j output, outputs[j]? = some output → c' ≤ (k + j) * spec.chunkSize →
        output.passes = [] ∨ ∃ q, next' = some q ∧ (k + j + 1) * spec.chunkSize < q
  | .error err => spec.Failed base err

variable {spec} {base : ℕ}

theorem stop_le_len (k : ℕ) : spec.stop k ≤ spec.seq.len := Nat.min_le_right _ _

theorem stop_le_mul (k : ℕ) : spec.stop k ≤ (k + 1) * spec.chunkSize := Nat.min_le_left _ _

theorem Reached.le_len {c : ℕ} {records : List ρ} {next : Option ℕ}
    (h : spec.Reached base c records next) : c ≤ spec.seq.len := by
  obtain ⟨i, rfl, -⟩ := h.chunk
  exact stop_le_len i

theorem Reached.pending {c : ℕ} {records : List ρ} {next : Option ℕ}
    (h : spec.Reached base c records next) (hc : c < spec.seq.len) :
    ∃ q, next = some q ∧ spec.seq.body base c = .ok (records, some q) ∧ c ≤ q ∧
      q ≤ spec.seq.len := by
  obtain ⟨next', hbody, hnext⟩ := h.body
  cases hnext' : next' with
  | none =>
      rw [hnext'] at hbody
      have hlen := spec.seq.none_only_at_len h.base_le h.le_len hbody
      omega
  | some q =>
      rw [hnext'] at hbody
      have hle := spec.seq.le_next h.base_le h.le_len hbody
      exact ⟨q, by rw [← hnext hc, hnext'], hbody, hle⟩

/-- A parse from the pending boundary extends what is reached. -/
theorem Reached.extend {c k q : ℕ} {records rest : List ρ} {next : Option ℕ}
    (h : spec.Reached base c records (some q)) (hpending : c < spec.seq.len)
    (hc : c ≤ spec.stop k) (hq : q ≤ spec.stop k) (hpass : spec.HasPass k)
    (hrest : ∃ next', spec.seq.body q (spec.stop k) = .ok (rest, next') ∧
      (spec.stop k < spec.seq.len → next' = next)) :
    spec.Reached base (spec.stop k) (records ++ rest) next := by
  obtain ⟨q', heq, hbody, -, -⟩ := h.pending hpending
  cases heq
  obtain ⟨n, hrest, hn⟩ := hrest
  refine ⟨le_trans h.base_le hc, ⟨k, rfl, hpass⟩, n, ?_, hn⟩
  rw [spec.seq.handover h.base_le hc (stop_le_len k) hbody hq, hrest]
  rfl

/-- A chunk passed over leaves the merge where it was. -/
theorem Merged.skip {k c : ℕ} {next : Option ℕ} {output : ChunkOutput (List ρ)}
    {outputs : List (ChunkOutput (List ρ))} {result : Except Error (List (List ρ))}
    (h : spec.Merged base (k + 1) c next outputs result)
    (hpassed : output.passes = [] ∨ ∃ q, next = some q ∧ (k + 1) * spec.chunkSize < q) :
    spec.Merged base k c next (output :: outputs) result := by
  cases result with
  | error err => exact h
  | ok states =>
      obtain ⟨c', next', hreached, hmoved, hlater⟩ := h
      have hend : (k + 1) * spec.chunkSize = k * spec.chunkSize + spec.chunkSize :=
        Nat.succ_mul _ _
      refine ⟨c', next', hreached, ?_, fun j output' hget hle => ?_⟩
      · rcases hmoved with hsame | hmoved
        · exact Or.inl hsame
        · exact Or.inr (by omega)
      · cases j with
        | zero =>
            cases hget
            rcases hmoved with hsame | hmoved
            · rw [hsame.2]
              exact hpassed
            · rw [Nat.add_zero] at hle
              omega
        | succ j =>
            rw [show k + (j + 1) = k + 1 + j by omega] at hle ⊢
            exact hlater j output' hget hle

/-- A chunk merged moves the merge past its start. -/
theorem Merged.advance {k c c' : ℕ} {next next' : Option ℕ} {output : ChunkOutput (List ρ)}
    {outputs : List (ChunkOutput (List ρ))} {result : Except Error (List (List ρ))}
    (h : spec.Merged base (k + 1) c' next' outputs result)
    (hpast : k * spec.chunkSize < c') :
    spec.Merged base k c next (output :: outputs) result := by
  cases result with
  | error err => exact h
  | ok states =>
      obtain ⟨c'', next'', hreached, hmoved, hlater⟩ := h
      have hend : (k + 1) * spec.chunkSize = k * spec.chunkSize + spec.chunkSize :=
        Nat.succ_mul _ _
      have hpast' : k * spec.chunkSize < c'' := by
        rcases hmoved with hsame | hmoved
        · rw [hsame.1]
          exact hpast
        · omega
      refine ⟨c'', next'', hreached, Or.inr hpast', fun j output' hget hle => ?_⟩
      cases j with
      | zero =>
          rw [Nat.add_zero] at hle
          omega
      | succ j =>
          rw [show k + (j + 1) = k + 1 + j by omega] at hle ⊢
          exact hlater j output' hget hle

/-- From where the merge has come, it follows the sequential parse. -/
theorem mergeLoop_spec {reparse : Reparse (List ρ)} (hreparse : spec.Reparses reparse)
    (outputs : List (ChunkOutput (List ρ))) (k c : ℕ) (next : Option ℕ)
    (states : List (List ρ))
    (htruthful : ∀ j output, outputs[j]? = some output → spec.Speculative (k + j) output)
    (hreached : spec.Reached base c states.flatten next) (hc : c ≤ k * spec.chunkSize) :
    spec.Merged base k c next outputs
      (mergeLoop spec.chunkSize reparse outputs (k * spec.chunkSize) next states) := by
  induction outputs generalizing k c next states with
  | nil =>
      exact ⟨c, next, hreached, Or.inl ⟨rfl, rfl⟩, fun j output hget => by cases hget⟩
  | cons output outputs ih =>
      have hend : (k + 1) * spec.chunkSize = k * spec.chunkSize + spec.chunkSize :=
        Nat.succ_mul _ _
      have htrue : spec.Speculative k output := htruthful 0 output rfl
      have hrest : ∀ j output, outputs[j]? = some output →
          spec.Speculative (k + 1 + j) output := by
        intro j output hget
        have htrue := htruthful (j + 1) output hget
        rwa [show k + (j + 1) = k + 1 + j by omega] at htrue
      have hskip := ih (k + 1) c next states hrest hreached (by omega)
      have hmerge : ∀ rest next',
          spec.Reached base (spec.stop k) (states.flatten ++ rest) next' →
          k * spec.chunkSize < spec.stop k →
          spec.Merged base k c next (output :: outputs)
            (mergeLoop spec.chunkSize reparse outputs ((k + 1) * spec.chunkSize) next'
              (states ++ [rest])) := by
        intro rest next' hreached' hpast
        refine Merged.advance (ih (k + 1) _ next' _ hrest ?_ (stop_le_mul k)) hpast
        rw [List.flatten_append, List.flatten_singleton]
        exact hreached'
      simp only [mergeLoop, ← hend]
      split
      · rename_i hbeyond
        rw [Option.any_eq_true] at hbeyond
        obtain ⟨q, hq, hlt⟩ := hbeyond
        exact hskip.skip (Or.inr ⟨q, hq, of_decide_eq_true hlt⟩)
      · rename_i hwithin
        split
        · rename_i hempty
          exact hskip.skip (Or.inl (List.isEmpty_iff.mp hempty))
        · rename_i hpasses
          -- a chunk with a pass begins inside the input, so a boundary is pending
          have hne : output.passes ≠ [] := fun h => hpasses (List.isEmpty_iff.mpr h)
          obtain ⟨pass, hpass⟩ := List.exists_mem_of_ne_nil output.passes hne
          have hhasPass := htrue.hasPass hne
          have hinside := htrue.inside pass hpass
          have hstop : spec.stop k ≤ spec.seq.len := stop_le_len k
          have hclen : c < spec.seq.len := by omega
          obtain ⟨q, hq, hbody, hcq, hqlen⟩ := hreached.pending hclen
          subst hq
          have hqend : q ≤ (k + 1) * spec.chunkSize := by
            simpa using hwithin
          have hqstop : q ≤ spec.stop k := le_min hqend hqlen
          have hcstop : c ≤ spec.stop k := by omega
          split
          · rename_i pass' hfind
            have hmem := List.mem_of_find?_eq_some hfind
            have haligned := List.find?_some hfind
            simp only [Option.all_some, beq_iff_eq] at haligned
            split
            · rename_i err hresult
              have herr := htrue.error pass' hmem err hresult
              rw [← haligned] at herr
              exact .later k c q _ hreached.base_le hcstop hbody hqstop hhasPass herr
            · rename_i records hresult
              apply hmerge
              · have hok := htrue.ok pass' hmem records hresult
                rw [← haligned] at hok
                exact hreached.extend hclen hcstop hqstop hhasPass hok
              · omega
          · have hsound := hreparse k q hqstop
            simp only
            split
            · rename_i err hresult
              rw [hresult] at hsound
              exact .later k c q _ hreached.base_le hcstop hbody hqstop hhasPass hsound
            · rename_i records offset hresult
              rw [hresult] at hsound
              apply hmerge
              · exact hreached.extend hclen hcstop hqstop hhasPass hsound
              · omega

/-- Chunks without a pass before the first boundary are passed over. -/
theorem mergeLoop_leading {σ : Type} {chunkSize : ℕ} {reparse : Reparse σ}
    (skipped outputs : List (ChunkOutput σ)) (k : ℕ)
    (hskipped : ∀ output ∈ skipped, output.passes = []) :
    mergeLoop chunkSize reparse (skipped ++ outputs) (k * chunkSize) none [] =
      mergeLoop chunkSize reparse outputs ((k + skipped.length) * chunkSize) none [] := by
  induction skipped generalizing k with
  | nil => rfl
  | cons output skipped ih =>
      have hempty := hskipped output List.mem_cons_self
      rw [List.cons_append, mergeLoop]
      simp only [Option.any_none, Bool.false_eq_true, if_false, hempty, List.isEmpty_nil, if_true]
      rw [← Nat.succ_mul, ih (k + 1) fun other hmem => hskipped other (List.mem_cons_of_mem _ hmem),
        List.length_cons, show k + 1 + skipped.length = k + (skipped.length + 1) by omega]

/-- The merge of all chunks: the first one with a pass sets the boundary to start
from. -/
theorem collectAndMerge_spec {reparse : Reparse (List ρ)} (hreparse : spec.Reparses reparse)
    {skipped rest : List (ChunkOutput (List ρ))} {first : ChunkOutput (List ρ)}
    (hskipped : ∀ output ∈ skipped, output.passes = [])
    (hfirst : spec.Truthful skipped.length first) (hpasses : first.passes ≠ [])
    (hbase : ∀ pass ∈ first.passes, pass.recordStart = base)
    (hbase_le : base ≤ spec.stop skipped.length)
    (hrest : ∀ j output, rest[j]? = some output →
      spec.Speculative (skipped.length + 1 + j) output) :
    match collectAndMerge spec.chunkSize (skipped ++ first :: rest) reparse with
    | .ok states => ∃ c next, spec.Reached base c states.flatten next ∧
        spec.stop skipped.length ≤ c ∧
        ∀ j output, rest[j]? = some output →
          c ≤ (skipped.length + 1 + j) * spec.chunkSize →
          output.passes = [] ∨
            ∃ q, next = some q ∧ (skipped.length + 1 + j + 1) * spec.chunkSize < q
    | .error err => spec.Failed base err := by
  obtain ⟨pass, passes, hpass⟩ := List.exists_cons_of_ne_nil hpasses
  have hmem : pass ∈ first.passes := by rw [hpass]; exact List.mem_cons_self
  have hstart := hbase pass hmem
  have hhasPass := hfirst.hasPass hpasses
  have hleading := @mergeLoop_leading _ spec.chunkSize reparse skipped (first :: rest) 0
    hskipped
  rw [Nat.zero_mul, Nat.zero_add] at hleading
  rw [collectAndMerge, hleading]
  simp only [mergeLoop, hpass, Option.any_none, Bool.false_eq_true, if_false,
    List.isEmpty_cons, List.find?_cons, Option.all_none, List.nil_append, ← Nat.succ_mul]
  cases hresult : pass.result with
  | error err =>
      have herr := hfirst.error pass hmem err hresult
      rw [hstart] at herr
      exact .first skipped.length hbase_le hhasPass herr
  | ok records =>
      have hok := hfirst.ok pass hmem records hresult
      rw [hstart] at hok
      have hloop := mergeLoop_spec hreparse rest (skipped.length + 1)
        (spec.stop skipped.length) first.recordEnd [records] hrest
        ⟨hbase_le, ⟨_, rfl, hhasPass⟩, by rw [List.flatten_singleton]; exact hok⟩
        (stop_le_mul _)
      simp only
      split
      · rename_i states hstates
        rw [hstates] at hloop
        obtain ⟨c, next, hreached, hmoved, hlater⟩ := hloop
        refine ⟨c, next, hreached, ?_, hlater⟩
        rcases hmoved with hsame | hmoved
        · exact hsame.1.ge
        · exact le_trans (stop_le_mul _) hmoved.le
      · rename_i err herr
        rwa [herr] at hloop

end Speculation

/-- The chunk outputs of a truthful speculation on a sequential parser. -/
def truthful (seq : Sequential ρ Error) (chunkSize : ℕ) : Speculation ρ Error where
  seq := seq
  chunkSize := chunkSize
  HasPass _ := True
  Fails k p err := seq.body p (min ((k + 1) * chunkSize) seq.len) = .error err

/-- Every chunk that contains a boundary the sequential parse hands over at an
earlier chunk's end has a pass.  The last chunk contains the end of the input. -/
def Covered (seq : Sequential ρ ε) (chunkSize : ℕ) (outputs : List (ChunkOutput (List ρ))) :
    Prop :=
  seq.len ≤ outputs.length * chunkSize ∧
    ∀ i j output records q, i < j → outputs[j]? = some output →
      seq.body 0 ((i + 1) * chunkSize) = .ok (records, some q) →
      (i + 1) * chunkSize ≤ seq.len → j * chunkSize ≤ q →
      (q < (j + 1) * chunkSize ∨ seq.len ≤ (j + 1) * chunkSize) → output.passes ≠ []

/-- Some chunk past the `i`-th contains a boundary that lies past its end. -/
theorem exists_chunk_of_le {chunkSize i n q len : ℕ} (hi : (i + 1) * chunkSize < len)
    (hq : (i + 1) * chunkSize ≤ q) (hlen : q ≤ len) (hcover : len ≤ n * chunkSize) :
    ∃ j, i < j ∧ j < n ∧ j * chunkSize ≤ q ∧ q ≤ (j + 1) * chunkSize ∧
      (q < (j + 1) * chunkSize ∨ len ≤ (j + 1) * chunkSize) := by
  have hpos : 0 < chunkSize := by
    rcases Nat.eq_zero_or_pos chunkSize with hzero | hpos
    · rw [hzero, Nat.mul_zero] at hcover
      omega
    · exact hpos
  by_cases hlast : q < n * chunkSize
  · have hdiv := Nat.div_mul_le_self q chunkSize
    have hlt : q < (q / chunkSize + 1) * chunkSize := by
      rw [Nat.mul_comm]
      exact Nat.lt_mul_div_succ q hpos
    refine ⟨q / chunkSize, ?_, (Nat.div_lt_iff_lt_mul hpos).mpr hlast, hdiv, hlt.le,
      Or.inl hlt⟩
    exact Nat.lt_of_lt_of_le (Nat.lt_succ_self i) ((Nat.le_div_iff_mul_le hpos).mpr hq)
  · have hin : i + 1 < n := Nat.lt_of_mul_lt_mul_right (Nat.lt_of_lt_of_le hi hcover)
    obtain ⟨m, rfl⟩ := Nat.exists_eq_add_of_lt hin
    refine ⟨i + 1 + m, by omega, by omega, ?_, by omega, Or.inr hcover⟩
    have hle : (i + 1 + m) * chunkSize ≤ (i + 1 + m + 1) * chunkSize :=
      Nat.mul_le_mul_right _ (Nat.le_succ _)
    omega

/-- An error of the merge is one of the sequential parse. -/
theorem error_of_failed {seq : Sequential ρ Error} {chunkSize : ℕ} {err : Error}
    (h : (truthful seq chunkSize).Failed 0 err) : seq.body 0 seq.len = .error err := by
  cases h with
  | first k hbase _ hfails =>
      exact seq.error hbase (Nat.min_le_right _ _) (Nat.le_refl _) hfails
  | later k c q records hbase hc hbody hq _ hfails =>
      have hclen : c ≤ seq.len := le_trans hc (Nat.min_le_right _ _)
      exact seq.error_of_handover hbase hclen hbody
        (seq.error hq (Nat.min_le_right _ _) (Nat.le_refl _) hfails)

/-- Truthful speculation is merged into the sequential parse: success yields a prefix
of its records, failure is its failure, and where the pending boundary always falls
into a chunk with a pass, success yields all of its records. -/
theorem collectAndMerge_follows_sequential (seq : Sequential ρ Error) (chunkSize : ℕ)
    (reparse : Reparse (List ρ)) (first : ChunkOutput (List ρ))
    (rest : List (ChunkOutput (List ρ))) (hreparse : (truthful seq chunkSize).Reparses reparse)
    (hfirst : (truthful seq chunkSize).Truthful 0 first)
    (hpasses : first.passes ≠ []) (hbase : ∀ pass ∈ first.passes, pass.recordStart = 0)
    (hrest : ∀ j output, rest[j]? = some output →
      (truthful seq chunkSize).Speculative (j + 1) output) :
    (∀ states, collectAndMerge chunkSize (first :: rest) reparse = .ok states →
      (∃ c next, c ≤ seq.len ∧ seq.body 0 c = .ok (states.flatten, next)) ∧
      ∀ records next, seq.body 0 seq.len = .ok (records, next) →
        states.flatten <+: records) ∧
    (∀ err, collectAndMerge chunkSize (first :: rest) reparse = .error err →
      seq.body 0 seq.len = .error err) ∧
    (Covered seq chunkSize (first :: rest) →
      ∀ states, collectAndMerge chunkSize (first :: rest) reparse = .ok states →
        ∃ next, seq.body 0 seq.len = .ok (states.flatten, next)) := by
  have hmerge := Speculation.collectAndMerge_spec hreparse
    (fun _ hmem => absurd hmem List.not_mem_nil) hfirst hpasses hbase (Nat.zero_le _)
    (fun j output hget => by
      rw [List.length_nil, Nat.zero_add, Nat.add_comm]
      exact hrest j output hget)
  rw [List.nil_append, List.length_nil, Nat.zero_add] at hmerge
  refine ⟨fun states hstates => ?_, fun err herr => ?_, fun hcovered states hstates => ?_⟩
  · rw [show (truthful seq chunkSize).chunkSize = chunkSize from rfl, hstates] at hmerge
    obtain ⟨c, _, hreached, -, -⟩ := hmerge
    obtain ⟨next, hbody, -⟩ := hreached.body
    exact ⟨⟨c, next, hreached.le_len, hbody⟩, fun records next' hall =>
      seq.records_prefix (Nat.zero_le c) hreached.le_len (Nat.le_refl _) hbody hall⟩
  · rw [show (truthful seq chunkSize).chunkSize = chunkSize from rfl, herr] at hmerge
    exact error_of_failed hmerge
  · rw [show (truthful seq chunkSize).chunkSize = chunkSize from rfl, hstates] at hmerge
    obtain ⟨c, next, hreached, -, hlater⟩ := hmerge
    obtain ⟨hcover, hpass⟩ := hcovered
    by_cases hc : c < seq.len
    · -- the pending boundary lies in a later chunk, which has a pass
      obtain ⟨i, hi, -⟩ := hreached.chunk
      have hci : c = (i + 1) * chunkSize := by
        have hstop : (truthful seq chunkSize).stop i = min ((i + 1) * chunkSize) seq.len := rfl
        rw [hi, hstop] at hc ⊢
        omega
      obtain ⟨q, hq, hbody, hcq, hqlen⟩ := hreached.pending hc
      rw [List.length_cons] at hcover
      obtain ⟨j, hij, hjn, hjq, hqj⟩ : ∃ j, i < j ∧ j < rest.length + 1 ∧
          j * chunkSize ≤ q ∧ q ≤ (j + 1) * chunkSize ∧
          (q < (j + 1) * chunkSize ∨ seq.len ≤ (j + 1) * chunkSize) :=
        exists_chunk_of_le (hci ▸ hc) (hci ▸ hcq) hqlen hcover
      obtain ⟨m, rfl⟩ : ∃ m, j = m + 1 := ⟨j - 1, by omega⟩
      have hget : rest[m]? = some rest[m] := List.getElem?_eq_getElem (by omega)
      have hne : rest[m].passes ≠ [] := by
        refine hpass i (m + 1) _ states.flatten q hij ?_ (hci ▸ hbody) (hci ▸ hreached.le_len)
          hjq hqj.2
        rw [List.getElem?_cons_succ, hget]
      have hle : (i + 1) * chunkSize ≤ (m + 1) * chunkSize :=
        Nat.mul_le_mul_right _ (by omega)
      rw [← hci, Nat.add_comm m 1] at hle
      rcases hlater m _ hget hle with hempty | ⟨q', hq', hlt⟩
      · exact absurd hempty hne
      · rw [hq] at hq'
        cases hq'
        have hend := hqj.1
        rw [show m + 1 + 1 = 1 + m + 1 by omega] at hend
        exact absurd hend (Nat.not_le.mpr hlt)
    · obtain ⟨next', hbody, -⟩ := hreached.body
      have hlen : c = seq.len := le_antisymm hreached.le_len (by omega)
      exact ⟨next', by rw [← hlen]; exact hbody⟩

/-- A parser of offsets: each one is a record. -/
def offsets (len : ℕ) : Sequential ℕ Error where
  len := len
  body p c := .ok (List.range' p (c - p), if c < len then some c else none)
  none_only_at_len := by
    intro p c records hp hc hbody
    by_cases hlt : c < len
    · rw [if_pos hlt] at hbody
      cases hbody
    · omega
  le_next := by
    intro p c records q hp hc hbody
    by_cases hlt : c < len
    · rw [if_pos hlt] at hbody
      cases hbody
      omega
    · rw [if_neg hlt] at hbody
      cases hbody
  handover := by
    intro p c c' records q hp hc hc' hbody hq
    by_cases hlt : c < len
    · rw [if_pos hlt] at hbody
      cases hbody
      have hsplit := List.range'_append_1 (s := p) (m := c - p) (n := c' - c)
      rw [Nat.add_sub_cancel' hp, show c - p + (c' - c) = c' - p by omega] at hsplit
      simp only [Except.map, hsplit]
    · rw [if_neg hlt] at hbody
      cases hbody
  stay := by
    intro p c c' records q hp hc hc' hbody hq
    by_cases hlt : c < len
    · rw [if_pos hlt] at hbody
      cases hbody
      omega
    · rw [if_neg hlt] at hbody
      cases hbody
  error := by
    intro p c c' err hp hc hc' hbody
    cases hbody

def reparseOffsets (len : ℕ) : Reparse (List ℕ) := fun p stop =>
  let stop := min stop len
  .ok (List.range' p (stop - p), if stop < len then some (stop - p) else none)

theorem reparses_reparseOffsets (len chunkSize : ℕ) :
    (truthful (offsets len) chunkSize).Reparses (reparseOffsets len) := by
  intro k p hp
  have hstop : (truthful (offsets len) chunkSize).stop k = min ((k + 1) * chunkSize) len := rfl
  rw [hstop] at hp
  refine ⟨_, rfl, fun _ => ?_⟩
  rw [hstop, show (truthful (offsets len) chunkSize).chunkSize = chunkSize from rfl]
  by_cases hlt : min ((k + 1) * chunkSize) len < len
  · rw [if_pos hlt, if_pos hlt, Option.map_some, Nat.add_sub_cancel' hp]
  · rw [if_neg hlt, if_neg hlt, Option.map_none]

/-- The second chunk's pass misses the boundary, and the merge parses again from it. -/
theorem collectAndMerge_follows_offsets :
    collectAndMerge 2 [⟨[⟨0, .ok [0, 1]⟩], some 2⟩, ⟨[⟨3, .ok [3]⟩], none⟩] (reparseOffsets 4) =
        .ok [[0, 1], [2, 3]] ∧
      ∃ next, (offsets 4).body 0 4 = .ok ([0, 1, 2, 3], next) := by
  refine ⟨by decide, (collectAndMerge_follows_sequential (offsets 4) 2 (reparseOffsets 4)
    ⟨[⟨0, .ok [0, 1]⟩], some 2⟩ [⟨[⟨3, .ok [3]⟩], none⟩] (reparses_reparseOffsets 4 2) ?_ (by simp)
    (by simp) ?_).2.2 ?_ [[0, 1], [2, 3]] (by decide)⟩
  · refine ⟨fun _ => trivial, ?_, by simp⟩
    simp only [List.mem_singleton, forall_eq, Except.ok.injEq]
    rintro _ rfl
    exact ⟨some 2, rfl, fun _ => rfl⟩
  · intro j output hget
    obtain ⟨hj, rfl⟩ := List.getElem?_eq_some_iff.mp hget
    obtain rfl : j = 0 := by simpa using hj
    refine ⟨⟨fun _ => trivial, ?_, by simp⟩, by simp; decide⟩
    simp only [List.getElem_cons_zero, List.mem_singleton, forall_eq, Except.ok.injEq]
    rintro _ rfl
    exact ⟨none, rfl, fun _ => rfl⟩
  · refine ⟨by decide, fun i j output records q hij hget _ _ _ _ => ?_⟩
    obtain ⟨hj, rfl⟩ := List.getElem?_eq_some_iff.mp hget
    obtain rfl : j = 1 := by
      simp only [List.length_cons, List.length_nil] at hj
      omega
    simp

end Csveee.Scheduler
