import Zilionixx.TopicsSearch
import Mathlib.Algebra.Group.Nat.Units

/-!
# Log filters

`filters/filter.go`: the logs of a range of blocks are taken from the index (`indexedLogs`), or
the logs of each block are filtered (`filterLogs`). Both match the same logs, but a search in the
index finds a log again for each repeated entry of the filter.
-/

namespace Zilionixx.Topicsdb

/-- `Filter`, as far as it is read to match logs. -/
structure Filter where
  addresses : List Address
  topics : List (List Hash)
  /-- of the configuration -/
  indexedLogsBlockRangeLimit : UInt64

/-- The errors of `indexedLogs`. -/
inductive FilterError where
  /-- "too wide blocks range, the limit is %d" -/
  | tooWide (limit : UInt64)
  /-- an error of the index -/
  | search (err : SearchError)
  deriving DecidableEq

/-- `isEmpty` -/
def isEmpty (topics : List (List Hash)) : Bool := topics.all fun tt => ¬tt.length > 0

/-- `includes` -/
def includes (addresses : List Address) (a : Address) : Bool := addresses.any fun addr => addr = a

/-- `Int64` of a `big.Int` -/
def bigInt64 (x : ℤ) : Int64 :=
  let v := (UInt64.ofNat x.natAbs).toInt64
  if x < 0 then -v else v

/-- `Uint64` of a `big.Int` -/
def bigUint64 (x : ℤ) : UInt64 := .ofNat x.natAbs

/-- The rules of `filterLogs` for the topics; there are enough topics in the log. -/
def matchTopics (topics : List (List Hash)) (log : Log) : Bool :=
  topics.zipIdx.all fun (sub, i) =>
    -- empty rule set == wildcard
    sub.length = 0 ∨ sub.any fun topic => log.topics[i]? = some topic

/-- The body of the loop in `filterLogs`: a log is appended or not. -/
def passes (fromBlock toBlock : Option ℤ) (addresses : List Address) (topics : List (List Hash))
    (log : Log) : Bool :=
  if fromBlock.any fun b => bigInt64 b ≥ 0 ∧ bigUint64 b > log.blockNumber then false
  else if toBlock.any fun b => bigInt64 b ≥ 0 ∧ bigUint64 b < log.blockNumber then false
  else if addresses.length > 0 ∧ ¬includes addresses log.address then false
  -- If the to filtered topics is greater than the amount of topics in logs, skip.
  else if topics.length > log.topics.length then false
  else matchTopics topics log

/-- `filterLogs` -/
def filterLogs (logs : List Log) (fromBlock toBlock : Option ℤ) (addresses : List Address)
    (topics : List (List Hash)) : List Log :=
  logs.filter (passes fromBlock toBlock addresses topics)

namespace Filter

/-- The pattern for the index. -/
def pattern (f : Filter) : List (List Hash) := f.addresses.map Address.toHash :: f.topics

/-- `indexedLogs` -/
def indexedLogs (f : Filter) (tt : Index) (first last : UInt64) :
    Except (Fault FilterError) (List Log) :=
  if last - first > f.indexedLogsBlockRangeLimit then
    .error (.error (.tooWide f.indexedLogsBlockRangeLimit))
  else
    (tt.findInBlocks first last f.pattern).mapError fun
      | .panic => .panic
      | .error err => .error (.search err)

end Filter

/-! ## Matching -/

theorem toHash_injective : Function.Injective Address.toHash := fun _ _ h =>
  List.Vector.eq _ _ (List.append_cancel_left (congrArg List.Vector.toList h))

theorem includes_iff {addresses : List Address} {a : Address} :
    includes addresses a = true ↔ a ∈ addresses := by
  simp [includes]

theorem matchTopics_iff {topics : List (List Hash)} {log : Log} :
    matchTopics topics log = true ↔ ∀ (i : ℕ) sub, topics[i]? = some sub → sub ≠ [] →
      ∃ v ∈ sub, log.topics[i]? = some v := by
  rw [matchTopics, List.all_eq_true]
  simp only [List.mem_zipIdx_iff_getElem?, Prod.forall, Bool.decide_or, Bool.or_eq_true,
    decide_eq_true_eq, List.any_eq_true, List.length_eq_zero_iff]
  refine ⟨fun h i sub hi hne => ?_, fun h sub i hi => ?_⟩
  · exact (h sub i hi).resolve_left hne
  · rcases eq_or_ne sub [] with hnil | hne
    · exact .inl hnil
    · exact .inr (h i sub hi hne)

variable {f : Filter}

/-- The addresses and the topics of the pattern. -/
theorem matches_pattern {log : Log} :
    log.Matches f.pattern ↔ (f.addresses ≠ [] → log.address ∈ f.addresses) ∧
      ∀ (i : ℕ) sub, f.topics[i]? = some sub → sub ≠ [] → ∃ v ∈ sub, log.topics[i]? = some v := by
  refine ⟨fun h => ⟨fun hne => ?_, fun i => h (i + 1)⟩, ?_⟩
  · obtain ⟨v, hv, hat⟩ := h 0 _ rfl (List.map_eq_nil_iff.not.mpr hne)
    cases hat
    exact (List.mem_map_of_injective toHash_injective).mp hv
  · rintro ⟨haddress, htopics⟩ pos variants hpos hne
    cases pos with
    | zero =>
      cases hpos
      have hmem := haddress (List.map_eq_nil_iff.not.mp hne)
      exact ⟨_, List.mem_map_of_mem hmem, rfl⟩
    | succ i => exact htopics i variants hpos hne

/-- `filterLogs` for the pattern of the index. -/
theorem passes_iff {log : Log} :
    passes none none f.addresses f.topics log = true ↔
      f.pattern.length - 1 ≤ log.topics.length ∧ log.Matches f.pattern := by
  have hlength : f.pattern.length - 1 = f.topics.length := rfl
  rw [hlength, matches_pattern, ← matchTopics_iff, passes]
  simp only [Option.any_none, Bool.false_eq_true, if_false, includes_iff, gt_iff_lt,
    List.length_pos_iff]
  split
  · next h => simp [h.1, h.2]
  split
  · next h => simp [Nat.not_le.mpr h]
  · next haddress hlen =>
    have hmem : f.addresses ≠ [] → log.address ∈ f.addresses := fun hne => by
      by_contra hnot
      exact haddress ⟨hne, hnot⟩
    exact ⟨fun hmatch => ⟨Nat.not_lt.mp hlen, hmem, hmatch⟩, fun h => h.2.2⟩

theorem Index.findInBlocks_take (tt : Index) (first last : UInt64) (pattern : List (List Hash)) :
    tt.findInBlocks first last (pattern.take maxTopicsCount) =
      tt.findInBlocks first last pattern := by
  rw [findInBlocks, findInBlocks, forEachInBlocks, forEachInBlocks, limitPattern, limitPattern,
    List.take_take, Nat.min_self]

/-- At least one criterion, as `Logs` asks before it takes the logs from the index. -/
def Filter.HasCriterion (f : Filter) : Prop := ¬(isEmpty f.topics ∧ f.addresses.length = 0)

theorem Filter.HasCriterion.exists_variants (h : f.HasCriterion) :
    ∃ variants ∈ f.pattern, variants ≠ [] := by
  by_contra hnone
  refine h ⟨?_, ?_⟩
  · refine List.all_eq_true.mpr fun sub hsub => ?_
    by_contra hlen
    exact hnone ⟨sub, List.mem_cons_of_mem _ hsub, by
      rintro rfl
      exact hlen rfl⟩
  · by_contra hlen
    refine hnone ⟨f.addresses.map Address.toHash, List.mem_cons_self, ?_⟩
    exact fun hnil => hlen (List.length_eq_zero_iff.mpr (List.map_eq_nil_iff.mp hnil))

/-! ## The two filters -/

/-- What identifies a log. -/
def Log.key (l : Log) : UInt64 × Hash × UInt64 := (l.blockNumber, l.txHash, l.index)

/-- Lists of logs that are told apart by their keys. -/
theorem perm_of_map_key {logs found filtered : List Log} (hdistinct : (logs.map Log.key).Nodup)
    (hfound : ∀ l ∈ found, l ∈ logs) (hfiltered : ∀ l ∈ filtered, l ∈ logs) :
    (found.map Log.key).Perm (filtered.map Log.key) ↔ found.Perm filtered := by
  refine ⟨fun h => ?_, fun h => h.map _⟩
  -- the key leads back to the log
  have hback : ∀ l ∈ logs, logs.find? (·.key = l.key) = some l := by
    intro l hl
    cases hfind : logs.find? (·.key = l.key) with
    | none =>
      have hne := List.find?_eq_none.mp hfind l hl
      simp at hne
    | some l' =>
      have hkey : l'.key = l.key := by simpa using List.find?_some hfind
      rw [List.inj_on_of_nodup_map hdistinct (List.mem_of_find?_eq_some hfind) hl hkey]
  have hsome : ∀ ls : List Log, (∀ l ∈ ls, l ∈ logs) →
      (ls.map Log.key).map (fun k => logs.find? (·.key = k)) = ls.map some := by
    intro ls hls
    rw [List.map_map]
    exact List.map_congr_left fun l hl => hback l (hls l hl)
  have hperm := h.map fun k => logs.find? (·.key = k)
  rw [hsome found hfound, hsome filtered hfiltered] at hperm
  exact (List.map_perm_map_iff (Option.some_injective _)).mp hperm

/-- How often a log of the range is found. -/
theorem Filter.count_indexedLogs {tt : Index} {logs : List Log} (h : tt.Holds logs)
    (htopics : ∀ l ∈ logs, l.topics.length ≤ 4) {first last : UInt64} (hle : first ≤ last)
    (hrange : ∀ l ∈ logs, first ≤ l.blockNumber ∧ l.blockNumber ≤ last)
    (hlimit : last - first ≤ f.indexedLogsBlockRangeLimit)
    (hne : ∃ variants ∈ f.pattern.take maxTopicsCount, variants ≠ []) :
    ∃ found, f.indexedLogs tt first last = .ok found ∧ (∀ l ∈ found, l ∈ logs) ∧
      ∀ l ∈ logs, found.count l =
        if passes none none f.addresses f.topics l then l.hits 0 f.pattern else 0 := by
  obtain ⟨found, hfind, hfound⟩ := h.findInBlocks hle
    (List.length_take_le maxTopicsCount f.pattern) hne
  rw [Index.findInBlocks_take] at hfind
  refine ⟨found, ?_, hfound.mem, fun l hl => ?_⟩
  · rw [indexedLogs, if_neg (UInt64.not_lt.mpr hlimit), hfind]
    rfl
  · rw [hfound.count l hl, List.drop_zero]
    have hfew := htopics l hl
    rcases Nat.lt_or_ge maxTopicsCount f.pattern.length with hlong | hshort
    · -- there are too few topics for such a pattern
      have htake : (f.pattern.take maxTopicsCount).length = 255 :=
        List.length_take_of_le (Nat.le_of_lt hlong)
      have hlong' : 255 < f.pattern.length := hlong
      rw [if_neg fun hscope => absurd hscope.2.2 (by omega),
        if_neg fun hpass => absurd (passes_iff.mp hpass).1 (by omega)]
    · rw [List.take_of_length_le hshort]
      by_cases hpass : passes none none f.addresses f.topics l
      · rw [if_pos ⟨(hrange l hl).1, (hrange l hl).2, (passes_iff.mp hpass).1⟩, if_pos hpass]
      · rw [if_neg hpass]
        split
        · next hscope =>
          have hnot : ¬l.Matches f.pattern := fun hmatches =>
            hpass (passes_iff.mpr ⟨hscope.2.2, hmatches⟩)
          rw [← Log.hits_zero_pos] at hnot
          omega
        · rfl

/-- The entries of the filter that a log matches are not repeated. -/
def Filter.Unrepeated (f : Filter) (l : Log) : Prop :=
  ∀ (pos : ℕ) variants v, f.pattern[pos]? = some variants → l.topicAt pos = some v →
    variants.count v ≤ 1

/-- A filter whose lists have no repeated entry. -/
theorem Filter.unrepeated_of_nodup (h : ∀ variants ∈ f.pattern, variants.Nodup) (l : Log) :
    f.Unrepeated l := fun _ variants v hpos _ =>
  List.nodup_iff_count_le_one.mp (h variants (List.mem_of_getElem? hpos)) v

theorem hits_eq_one_iff {l : Log} (hmatches : l.Matches f.pattern) :
    l.hits 0 f.pattern = 1 ↔ f.Unrepeated l := by
  have hmul : ∀ a b : ℕ, a * b = 1 ↔ a = 1 ∧ b = 1 := fun a b => mul_eq_one
  have hcount : ∀ (variants : List Hash) (pos : ℕ) v, l.topicAt pos = some v →
      variants.countP (l.topicAt pos = some ·) = variants.count v := by
    intro variants pos v hv
    rw [List.count_eq_countP]
    refine List.countP_congr fun v' _ => ?_
    rw [decide_eq_true_eq, beq_iff_eq, hv, Option.some.injEq]
    exact eq_comm
  rw [Log.hits_iff (P := (· = 1)) rfl hmul]
  simp only [Nat.zero_add]
  refine ⟨fun h pos variants v hpos hv => ?_, fun h pos variants hpos hne => ?_⟩
  · rcases eq_or_ne variants [] with rfl | hne
    · exact Nat.zero_le 1
    · rw [← hcount variants pos v hv, h pos variants hpos hne]
  · obtain ⟨v, hmem, hv⟩ := hmatches pos variants hpos hne
    have hpos' := List.count_pos_iff.mpr hmem
    have hle := h pos variants v hpos hv
    rw [hcount variants pos v hv]
    omega

theorem mem_filterLogs {logs : List Log} {l : Log} :
    l ∈ filterLogs logs none none f.addresses f.topics ↔
      l ∈ logs ∧ passes none none f.addresses f.topics l = true :=
  List.mem_filter

theorem count_filterLogs {logs : List Log} (hnodup : logs.Nodup) {l : Log} (hl : l ∈ logs) :
    (filterLogs logs none none f.addresses f.topics).count l =
      if passes none none f.addresses f.topics l then 1 else 0 := by
  have hfiltered : (filterLogs logs none none f.addresses f.topics).Nodup := hnodup.filter _
  split
  · next hpass => exact List.count_eq_one_of_mem hfiltered (mem_filterLogs.mpr ⟨hl, hpass⟩)
  · next hpass => exact List.count_eq_zero_of_not_mem fun hmem => hpass (mem_filterLogs.mp hmem).2

/-- `indexedLogs` fails if the range is too wide, or if the criteria are beyond the positions of
the index. -/
theorem Filter.indexedLogs_ok {tt : Index} {first last : UInt64} {found : List Log}
    (hle : first ≤ last) (h : f.indexedLogs tt first last = .ok found) :
    last - first ≤ f.indexedLogsBlockRangeLimit ∧
      ∃ variants ∈ f.pattern.take maxTopicsCount, variants ≠ [] := by
  rw [indexedLogs] at h
  split at h
  · cases h
  · next hlimit =>
    refine ⟨UInt64.not_lt.mp hlimit, ?_⟩
    by_contra hnone
    have hempty : limitPattern f.pattern = .error .emptyTopics := by
      rw [limitPattern, if_neg]
      rintro hany
      obtain ⟨variants, hmem, hlen⟩ := List.any_eq_true.mp hany
      exact hnone ⟨variants, hmem, by simpa [List.length_pos_iff] using hlen⟩
    rw [Index.findInBlocks, Index.forEachInBlocks, if_neg (UInt64.not_lt.mpr hle), hempty] at h
    cases h

/-- What the index returns is what the filter of logs returns, unless a log is returned twice. -/
theorem Filter.perm_iff_unrepeated {logs found : List Log}
    (hholds : (Index.new.push logs).Holds logs) (hdistinct : (logs.map Log.key).Nodup)
    (htopics : ∀ l ∈ logs, l.topics.length ≤ 4) {first last : UInt64} (hle : first ≤ last)
    (hrange : ∀ l ∈ logs, first ≤ l.blockNumber ∧ l.blockNumber ≤ last)
    (hindexed : f.indexedLogs (Index.new.push logs) first last = .ok found) :
    (found.map Log.key).Perm ((filterLogs logs none none f.addresses f.topics).map Log.key) ↔
      ∀ l ∈ filterLogs logs none none f.addresses f.topics, f.Unrepeated l := by
  have hnodup : logs.Nodup := hdistinct.of_map _
  have hfiltered : ∀ l ∈ filterLogs logs none none f.addresses f.topics, l ∈ logs := fun l hl =>
    (mem_filterLogs.mp hl).1
  obtain ⟨hlimit, hne⟩ := f.indexedLogs_ok hle hindexed
  obtain ⟨found', hindexed', hmem, hcount⟩ :=
    f.count_indexedLogs hholds htopics hle hrange hlimit hne
  cases hindexed.symm.trans hindexed'
  rw [perm_of_map_key hdistinct hmem hfiltered, List.perm_iff_count]
  refine ⟨fun h l hl => ?_, fun h l => ?_⟩
  · obtain ⟨hl, hpass⟩ := mem_filterLogs.mp hl
    have hone := h l
    rw [hcount l hl, count_filterLogs hnodup hl, if_pos hpass, if_pos hpass] at hone
    exact (hits_eq_one_iff (passes_iff.mp hpass).2).mp hone
  · by_cases hl : l ∈ logs
    · rw [hcount l hl, count_filterLogs hnodup hl]
      split
      · next hpass =>
        exact (hits_eq_one_iff (passes_iff.mp hpass).2).mpr (h l (mem_filterLogs.mpr ⟨hl, hpass⟩))
      · rfl
    · rw [List.count_eq_zero_of_not_mem fun hmem' => hl (hmem l hmem'),
        List.count_eq_zero_of_not_mem fun hmem' => hl (hfiltered l hmem')]

/-- The index and the filter of logs return the same logs, unless an entry of the filter that a log
matches is repeated. The range may not be too wide, and some criterion has to be in the first 255
positions. -/
theorem filters_agree_iff (f : Filter) (hcriterion : f.HasCriterion) (logs : List Log)
    (hdistinct : (logs.map Log.key).Nodup) (htopics : ∀ l ∈ logs, l.topics.length ≤ 4)
    (first last : UInt64) (hle : first ≤ last)
    (hrange : ∀ l ∈ logs, first ≤ l.blockNumber ∧ l.blockNumber ≤ last) :
    (∃ found, f.indexedLogs (Index.new.push logs) first last = .ok found ∧
      (found.map Log.key).Perm
        ((filterLogs logs none none f.addresses f.topics).map Log.key)) ↔
    last - first ≤ f.indexedLogsBlockRangeLimit ∧
      (f.pattern.length ≤ 255 ∨ ∃ variants ∈ f.pattern.take 255, variants ≠ []) ∧
      ∀ l ∈ logs, passes none none f.addresses f.topics l = true → f.Unrepeated l := by
  have hholds : (Index.new.push logs).Holds logs :=
    Index.holds_push hdistinct fun l hl => (htopics l hl).trans (by decide)
  have hpassed : (∀ l ∈ filterLogs logs none none f.addresses f.topics, f.Unrepeated l) ↔
      ∀ l ∈ logs, passes none none f.addresses f.topics l = true → f.Unrepeated l :=
    List.forall_mem_filter
  rw [← hpassed]
  refine ⟨?_, ?_⟩
  · rintro ⟨found, hindexed, hperm⟩
    obtain ⟨hlimit, hne⟩ := f.indexedLogs_ok hle hindexed
    exact ⟨hlimit, .inr hne,
      (f.perm_iff_unrepeated hholds hdistinct htopics hle hrange hindexed).mp hperm⟩
  · rintro ⟨hlimit, hshort, hunrepeated⟩
    have hne : ∃ variants ∈ f.pattern.take maxTopicsCount, variants ≠ [] := by
      rcases hshort with hshort | hne
      · rw [List.take_of_length_le (show f.pattern.length ≤ maxTopicsCount from hshort)]
        exact hcriterion.exists_variants
      · exact hne
    obtain ⟨found, hindexed, -⟩ := f.count_indexedLogs hholds htopics hle hrange hlimit hne
    exact ⟨found, hindexed,
      (f.perm_iff_unrepeated hholds hdistinct htopics hle hrange hindexed).mpr hunrepeated⟩

/-- A filter by the address of the two logs, and by a topic that both have. -/
def moveFilter : Filter where
  addresses := [copyBytes 20 [3]]
  topics := [[copyBytes 32 [4], copyBytes 32 [1]]]
  indexedLogsBlockRangeLimit := 1000

theorem filters_agree_moveFilter :
    ∃ found, moveFilter.indexedLogs (Index.new.push [burnLog, moveLog]) 4 6 = .ok found ∧
      (found.map Log.key).Perm
        ((filterLogs [burnLog, moveLog] none none moveFilter.addresses moveFilter.topics).map
          Log.key) := by
  refine (filters_agree_iff moveFilter (fun h => absurd h.2 (by decide)) [burnLog, moveLog]
    (by decide) (by decide) 4 6 (by decide) (by decide)).mpr ⟨by decide, .inl (by decide), ?_⟩
  exact fun l _ _ => moveFilter.unrepeated_of_nodup (by decide) l

/-- The same filter, with the address given twice. -/
def repeatedFilter : Filter := { moveFilter with addresses := [copyBytes 20 [3], copyBytes 20 [3]] }

theorem filters_disagree :
    repeatedFilter.HasCriterion ∧
    repeatedFilter.indexedLogs (Index.new.push [moveLog]) 4 6 = .ok [moveLog, moveLog] ∧
    filterLogs [moveLog] none none repeatedFilter.addresses repeatedFilter.topics = [moveLog] ∧
    ¬([moveLog, moveLog].map Log.key).Perm ([moveLog].map Log.key) := by
  refine ⟨fun h => absurd h.2 (by decide), by decide +kernel, by decide +kernel, fun h => ?_⟩
  exact absurd h.length_eq (by decide)

end Zilionixx.Topicsdb
