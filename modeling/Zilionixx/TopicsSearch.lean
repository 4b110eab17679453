import Zilionixx.TopicsDb
import Mathlib.Data.List.Count

/-!
# Searches in the index of logs

The walks of `search_lazy.go`. A log is found once for each choice of matching variants, one for
each position of the pattern that is not a wildcard (`Log.hits`). So a log is found if it matches,
and it is found several times if a variant is repeated.
-/

namespace Zilionixx.Topicsdb

/-- How often a log is found for a pattern from a position on: a choice of a variant for each
position that is not a wildcard. -/
def Log.hits (l : Log) : ℕ → List (List Hash) → ℕ
  | _, [] => 1
  | pos, variants :: pattern =>
    (if variants = [] then 1 else variants.countP (l.topicAt pos = some ·)) *
      l.hits (pos + 1) pattern

theorem forEach_append {α β : Type} {body : α → List β → Option (Bool × List β)} (out : α → List β)
    {as : List α} (h : ∀ a ∈ as, ∀ s, body a s = some (true, s ++ out a)) (s : List β) :
    forEach body as s = some (true, s ++ as.flatMap out) := by
  induction as generalizing s with
  | nil => simp [forEach]
  | cons a as ih =>
    rw [forEach, h a List.mem_cons_self]
    simp only [Option.bind_eq_bind, Option.bind_some, if_true]
    rw [ih (fun a' ha' => h a' (List.mem_cons_of_mem _ ha')), List.flatMap_cons, List.append_assoc]

theorem flatMap_ite_replicate {α β : Type} (p : α → Prop) [DecidablePred p] (m : ℕ) (b : β)
    (as : List α) :
    (as.flatMap fun a => if p a then List.replicate m b else []) =
      List.replicate (as.countP (p ·) * m) b := by
  induction as with
  | nil => simp
  | cons a as ih =>
    rw [List.flatMap_cons, ih, List.countP_cons]
    by_cases ha : p a
    · simp [ha, Nat.add_mul, Nat.add_comm]
    · simp [ha]

/-- A list in which each element of another is repeated. -/
theorem count_flatMap_replicate {α : Type} [DecidableEq α] {as : List α} (h : as.Nodup) (m : α → ℕ)
    (a : α) : (as.flatMap fun a => List.replicate (m a) a).count a = if a ∈ as then m a else 0 := by
  induction as with
  | nil => simp
  | cons a' as ih =>
    obtain ⟨hnot, hnodup⟩ := List.nodup_cons.mp h
    rw [List.flatMap_cons, List.count_append, List.count_replicate, ih hnodup]
    by_cases heq : a' = a
    · subst heq
      simp [hnot]
    · simp [heq, Ne.symm heq]

/-- A list of parts which have an element equally often, or not at all. -/
theorem count_flatMap_ite {α β : Type} [DecidableEq β] {out : α → List β} {b : β} {c : ℕ}
    (p : α → Prop) [DecidablePred p] {as : List α}
    (h : ∀ a ∈ as, (out a).count b = if p a then c else 0) :
    (as.flatMap out).count b = as.countP (p ·) * c := by
  induction as with
  | nil => simp
  | cons a as ih =>
    rw [List.flatMap_cons, List.count_append, h a List.mem_cons_self,
      ih fun a' ha' => h a' (List.mem_cons_of_mem _ ha'), List.countP_cons]
    by_cases ha : p a
    · simp [ha, Nat.add_mul, Nat.add_comm]
    · simp [ha]

namespace Index

variable {tt : Index} {logs : List Log} {pattern : List (List Hash)}

/-- A position within the pattern, as an `uint8`. -/
theorem patternLen_le (hlen : pattern.length ≤ maxTopicsCount) (pos : UInt8) :
    pos ≥ patternLen pattern ↔ pattern.length ≤ pos.toNat := by
  rw [ge_iff_le, UInt8.le_iff_toNat_le, patternLen,
    UInt8.toNat_ofNat_of_lt' (Nat.lt_succ_of_le hlen)]

theorem toNat_pos_add_one (hlen : pattern.length ≤ maxTopicsCount) {pos : UInt8}
    (hpos : pos.toNat < pattern.length) : (pos + 1).toNat = pos.toNat + 1 := by
  have hmax : pattern.length ≤ 255 := hlen
  rw [UInt8.toNat_add]
  exact Nat.mod_eq_of_lt (show pos.toNat + 1 < 256 by omega)

/-- Logs with the same ID are the same. -/
theorem Holds.eq_of_id (h : tt.Holds logs) {l l' : Log} (hl : l ∈ logs) (hl' : l' ∈ logs)
    (heq : l.id = l'.id) : l = l' :=
  List.inj_on_of_nodup_map h.distinct hl hl' heq

/-- The key of a log is there if it has the topic at the position. -/
theorem Holds.iterate_topicKey (h : tt.Holds logs) {l : Log} (hl : l ∈ logs) (v : Hash)
    (pos : UInt8) :
    tt.topic.iterate (topicKey v pos l.id) [] =
      if l.topicAt pos.toNat = some v then [(topicKey v pos l.id, [.ofNat l.topics.length])]
      else [] := by
  rw [KvTable.iterate_key]
  · split
    · next hv =>
      rw [(h.topic _ _).mpr ⟨l, hl, (h.storable l hl).mem_keys.mpr ⟨rfl, hv⟩, rfl⟩]
      rfl
    · next hv =>
      have hnone : tt.topic.get (topicKey v pos l.id) = none := by
        refine Option.eq_none_iff_forall_ne_some.mpr fun value hvalue => hv ?_
        obtain ⟨l', hl', hkey, -⟩ := (h.topic _ _).mp hvalue
        obtain ⟨hid, hv'⟩ := (h.storable l' hl').mem_keys.mp hkey
        rwa [h.eq_of_id hl' hl hid] at hv'
      rw [hnone]
      rfl
  · intro key value hget
    obtain ⟨l', hl', hkey, -⟩ := (h.topic _ _).mp hget
    obtain ⟨v', pos', rfl⟩ := Log.exists_of_mem_keys hkey
    rw [length_topicKey, length_topicKey]

/-- The later positions of the pattern, for a log. -/
theorem Holds.walkNexts (h : tt.Holds logs) (hlen : pattern.length ≤ maxTopicsCount) {l : Log}
    (hl : l ∈ logs) {onMatched : Logrec → List Log → Option (Bool × List Log)} {rec : Logrec}
    (hid : rec.id = l.id) (hmatched : ∀ s, onMatched rec s = some (true, s ++ [l])) (fuel : ℕ)
    (pos : UInt8) (hfuel : pattern.length - pos.toNat < fuel) (s : List Log) :
    tt.walkNexts onMatched pattern rec fuel pos s =
      some (true, s ++ List.replicate (l.hits pos.toNat (pattern.drop pos.toNat)) l) := by
  induction fuel generalizing pos s with
  | zero => omega
  | succ fuel ih =>
    rw [Index.walkNexts]
    by_cases hend : pattern.length ≤ pos.toNat
    · rw [if_pos ((patternLen_le hlen pos).mpr hend), List.drop_eq_nil_of_le hend, hmatched]
      rfl
    · have hpos : pos.toNat < pattern.length := Nat.not_le.mp hend
      have hnext := toNat_pos_add_one hlen hpos
      rw [if_neg fun hge => hend ((patternLen_le hlen pos).mp hge), List.getElem?_eq_getElem hpos,
        List.drop_eq_getElem_cons hpos, Log.hits, ← hnext]
      simp only [Option.bind_eq_bind, Option.bind_some]
      have hwalk := ih (pos + 1) (by omega)
      by_cases hwild : pattern[pos.toNat] = []
      · rw [if_pos (by rw [hwild]; exact Nat.one_pos), if_pos hwild, Nat.one_mul, hwalk]
      · rw [if_neg (by simpa using hwild), if_neg hwild]
        rw [forEach_append fun v => if l.topicAt pos.toNat = some v then
          List.replicate (l.hits (pos + 1).toNat (pattern.drop (pos + 1).toNat)) l else []]
        · rw [flatMap_ite_replicate]
        · intro v _ s
          rw [hid, h.iterate_topicKey hl, forEach_append _ fun _ _ s => hwalk s]
          split
          · rw [List.flatMap_singleton]
          · rfl

/-- The logs of the keys that are visited for a variant. -/
structure Visited (logs : List Log) (first : UInt64) (v : Hash) (pos : UInt8) (visited : List Log) :
    Prop where
  nodup : visited.Nodup
  ordered : visited.Pairwise fun l l' => l.blockNumber ≤ l'.blockNumber
  mem : ∀ l, l ∈ visited ↔ l ∈ logs ∧ l.topicAt pos.toNat = some v ∧ first ≤ l.blockNumber

/-- The entry of a log for a topic. -/
def entryOf (v : Hash) (pos : UInt8) (l : Log) : List UInt8 × List UInt8 :=
  (topicKey v pos l.id, [.ofNat l.topics.length])

theorem Holds.mem_iterate (h : tt.Holds logs) {first : UInt64} {v : Hash} {pos : UInt8}
    {e : List UInt8 × List UInt8} :
    e ∈ tt.topic.iterate (v.toList ++ posToBytes pos) (uintToBytes first) ↔
      ∃ l ∈ logs, (l.topicAt pos.toNat = some v ∧ first ≤ l.blockNumber) ∧ entryOf v pos l = e := by
  obtain ⟨key, value⟩ := e
  rw [KvTable.mem_iterate, h.topic]
  refine ⟨?_, ?_⟩
  · rintro ⟨⟨l, hl, hkey, rfl⟩, hpre, hstart⟩
    obtain ⟨v', pos', rfl⟩ := Log.exists_of_mem_keys hkey
    have hfront : v.toList ++ [pos] = v'.toList ++ [pos'] := by
      refine (List.prefix_of_prefix_length_le hpre (List.prefix_append _ _) ?_).eq_of_length ?_
      · simp [posToBytes]
      · simp [posToBytes]
    obtain ⟨hv, hpos⟩ := List.append_inj' hfront rfl
    obtain rfl : v = v' := List.Vector.eq _ _ hv
    obtain rfl : pos = pos' := (List.cons.inj hpos).1
    exact ⟨l, hl, ⟨((h.storable l hl).mem_keys.mp hkey).2, start_le_topicKey.mp hstart⟩, rfl⟩
  · rintro ⟨l, hl, ⟨hv, hfirst⟩, heq⟩
    cases heq
    exact ⟨⟨l, hl, (h.storable l hl).mem_keys.mpr ⟨rfl, hv⟩, rfl⟩, List.prefix_append _ _,
      start_le_topicKey.mpr hfirst⟩

/-- A list of values of a function. -/
theorem exists_map_eq {α β : Type} {p : α → Prop} {f : α → β} {bs : List β}
    (h : ∀ b ∈ bs, ∃ a, p a ∧ f a = b) : ∃ as : List α, (∀ a ∈ as, p a) ∧ as.map f = bs := by
  induction bs with
  | nil => exact ⟨[], by simp, rfl⟩
  | cons b bs ih =>
    obtain ⟨a, ha, rfl⟩ := h b List.mem_cons_self
    obtain ⟨as, has, rfl⟩ := ih fun b hb => h b (List.mem_cons_of_mem _ hb)
    refine ⟨a :: as, fun a' ha' => ?_, rfl⟩
    rcases List.mem_cons.mp ha' with rfl | ha'
    · exact ha
    · exact has a' ha'

theorem Holds.exists_visited (h : tt.Holds logs) (first : UInt64) (v : Hash) (pos : UInt8) :
    ∃ visited, Visited logs first v pos visited ∧
      tt.topic.iterate (v.toList ++ posToBytes pos) (uintToBytes first) =
        visited.map (entryOf v pos) := by
  obtain ⟨visited, hvisited, hmap⟩ := exists_map_eq fun e he => by
    obtain ⟨l, hl, hcond, heq⟩ := h.mem_iterate.mp he
    exact ⟨l, And.intro hl hcond, heq⟩
  have hsorted := tt.topic.sorted_iterate (v.toList ++ posToBytes pos) (uintToBytes first)
  rw [← hmap, List.pairwise_map] at hsorted
  refine ⟨visited, ⟨?_, ?_, ?_⟩, hmap.symm⟩
  · refine hsorted.imp fun hlt heq => ?_
    exact List.lt_irrefl _ (heq ▸ hlt)
  · exact hsorted.imp fun hlt => blockNumber_le_of_topicKey_lt hlt
  · refine fun l => ⟨hvisited l, fun hl => ?_⟩
    have hentry := h.mem_iterate.mpr ⟨l, hl.1, hl.2, rfl⟩
    rw [← hmap] at hentry
    obtain ⟨l', hl', heq⟩ := List.mem_map.mp hentry
    rwa [← h.eq_of_id (hvisited l' hl').1 hl.1 (topicKey_inj (Prod.ext_iff.mp heq).1).2.2]

/-- A log that the search does not skip: it is not after the last block, and has enough topics
for the pattern. -/
def InScope (last : UInt64) (pattern : List (List Hash)) (l : Log) : Prop :=
  l.blockNumber ≤ last ∧ pattern.length - 1 ≤ l.topics.length

instance (last : UInt64) (pattern : List (List Hash)) (l : Log) :
    Decidable (InScope last pattern l) :=
  inferInstanceAs (Decidable (_ ∧ _))

theorem lt_patternLen (hlen : pattern.length ≤ maxTopicsCount) (hne : pattern ≠ []) {l : Log}
    (hl : l.Storable) :
    UInt8.ofNat l.topics.length < patternLen pattern - 1 ↔
      l.topics.length < pattern.length - 1 := by
  have hpos : 1 ≤ pattern.length := List.length_pos_iff.mpr hne
  have hmax : pattern.length ≤ 255 := hlen
  have hmax' : l.topics.length ≤ 255 := hl
  have hone : patternLen pattern - 1 = .ofNat (pattern.length - 1) := by
    rw [patternLen, UInt8.ofNat_sub hpos]
    rfl
  rw [hone, UInt8.lt_ofNat_iff (show _ < 256 by omega),
    UInt8.toNat_ofNat_of_lt' (show _ < 256 by omega)]

/-- The keys of a variant: each log in scope is handed on, up to the last block. -/
theorem walkKeys_visited (hlen : pattern.length ≤ maxTopicsCount) (hne : pattern ≠ [])
    {visited : List Log} (hstorable : ∀ l ∈ visited, l.Storable)
    (hordered : visited.Pairwise fun l l' => l.blockNumber ≤ l'.blockNumber)
    {next : Logrec → List Log → Option (Bool × List Log)} (m : Log → ℕ)
    (hnext : ∀ l ∈ visited, ∀ s,
      next ⟨l.id, .ofNat l.topics.length⟩ s = some (true, s ++ List.replicate (m l) l))
    (start : List UInt8) (last : UInt64) (v : Hash) (pos : UInt8) (s : List Log) :
    walkKeys pattern (some start) last next (visited.map (entryOf v pos)) s =
      some (true, s ++ visited.flatMap fun l =>
        List.replicate (if InScope last pattern l then m l else 0) l) := by
  induction visited generalizing s with
  | nil => simp [walkKeys]
  | cons l visited ih =>
    obtain ⟨hhead, htail⟩ := List.pairwise_cons.mp hordered
    have hlater := ih (fun l' hl' => hstorable l' (List.mem_cons_of_mem _ hl')) htail
      fun l' hl' => hnext l' (List.mem_cons_of_mem _ hl')
    have hcount := lt_patternLen hlen hne (hstorable l List.mem_cons_self)
    rw [List.map_cons, entryOf, walkKeys, List.flatMap_cons]
    simp only [List.head?_cons, Option.bind_eq_bind, Option.bind_some, extractLogrecID_topicKey,
      Option.isSome_some, true_and, Log.blockNumber_id, hcount]
    split
    · next hfew =>
      rw [if_neg fun hscope => absurd hscope.2 (Nat.not_le.mpr hfew), hlater,
        List.replicate_zero, List.nil_append]
    · next hmany =>
      split
      · next hafter =>
        -- the later keys are of later blocks
        have hout : ∀ l' ∈ l :: visited, ¬InScope last pattern l' := by
          intro l' hl' hscope
          refine UInt64.not_le.mpr hafter (UInt64.le_trans ?_ hscope.1)
          rcases List.mem_cons.mp hl' with rfl | hl'
          · exact UInt64.le_refl _
          · exact hhead l' hl'
        have hnil : (visited.flatMap fun l' =>
            List.replicate (if InScope last pattern l' then m l' else 0) l') = [] := by
          refine List.flatMap_eq_nil_iff.mpr fun l' hl' => ?_
          rw [if_neg (hout l' (List.mem_cons_of_mem _ hl')), List.replicate_zero]
        rw [hnil, if_neg (hout l List.mem_cons_self), List.replicate_zero, List.append_nil,
          List.append_nil]
        rfl
      · next hafter =>
        rw [if_pos ⟨UInt64.not_lt.mp hafter, Nat.not_lt.mp hmany⟩, hnext l List.mem_cons_self]
        simp only [Option.bind_some, if_true]
        rw [hlater, List.append_assoc]

/-- What a search returns: logs that are held, each as often as the pattern hits it. -/
structure Found (logs : List Log) (first last : UInt64) (pattern : List (List Hash)) (pos : ℕ)
    (found : List Log) : Prop where
  mem : ∀ l ∈ found, l ∈ logs
  count : ∀ l ∈ logs, found.count l =
    if first ≤ l.blockNumber ∧ InScope last pattern l then l.hits pos (pattern.drop pos) else 0

/-- The logs that are handed on for a variant. -/
def handedOn (last : UInt64) (pattern : List (List Hash)) (pos : UInt8) (visited : List Log) :
    List Log :=
  visited.flatMap fun l => List.replicate
    (if InScope last pattern l then l.hits (pos + 1).toNat (pattern.drop (pos + 1).toNat) else 0) l

/-- The variants of a position, all together. -/
theorem found_variants (hlen : pattern.length ≤ maxTopicsCount) {pos : UInt8}
    (hpos : pos.toNat < pattern.length) (hwild : pattern[pos.toNat] ≠ []) {first : UInt64}
    (last : UInt64) {visited : Hash → List Log} (h : ∀ v, Visited logs first v pos (visited v)) :
    Found logs first last pattern pos.toNat
      (pattern[pos.toNat].flatMap fun v => handedOn last pattern pos (visited v)) where
  mem l hl := by
    obtain ⟨v, -, hl⟩ := List.mem_flatMap.mp hl
    obtain ⟨l', hl', hl⟩ := List.mem_flatMap.mp hl
    obtain rfl := (List.mem_replicate.mp hl).2
    exact (((h v).mem l).mp hl').1
  count l hl := by
    have hcount : ∀ v ∈ pattern[pos.toNat], (handedOn last pattern pos (visited v)).count l =
        if l.topicAt pos.toNat = some v then
          if first ≤ l.blockNumber ∧ InScope last pattern l then
            l.hits (pos + 1).toNat (pattern.drop (pos + 1).toNat) else 0
        else 0 := by
      intro v _
      rw [handedOn, count_flatMap_replicate (h v).nodup]
      by_cases hv : l.topicAt pos.toNat = some v
      · by_cases hfirst : first ≤ l.blockNumber
        · rw [if_pos (((h v).mem l).mpr ⟨hl, hv, hfirst⟩), if_pos hv]
          simp only [hfirst, true_and]
        · rw [if_neg fun hmem => hfirst (((h v).mem l).mp hmem).2.2, if_pos hv,
            if_neg fun hscope => hfirst hscope.1]
      · rw [if_neg fun hmem => hv (((h v).mem l).mp hmem).2.1, if_neg hv]
    rw [count_flatMap_ite _ hcount, List.drop_eq_getElem_cons hpos, Log.hits, if_neg hwild,
      ← toNat_pos_add_one hlen hpos]
    split
    · rfl
    · rw [Nat.mul_zero]

/-- The search from a position on. -/
theorem Holds.walkFirst (h : tt.Holds logs) (hlen : pattern.length ≤ maxTopicsCount)
    (onMatched : Logrec → List Log → Option (Bool × List Log))
    (hmatched : ∀ l ∈ logs, ∀ s,
      onMatched ⟨l.id, .ofNat l.topics.length⟩ s = some (true, s ++ [l]))
    (first last : UInt64) (fuel : ℕ) (pos : UInt8) (hfuel : pattern.length - pos.toNat < fuel)
    (hne : ∃ variants ∈ pattern.drop pos.toNat, variants ≠ []) (s : List Log) :
    ∃ found, Found logs first last pattern pos.toNat found ∧
      tt.walkFirst onMatched pattern (some (uintToBytes first)) last fuel pos s =
        some (true, s ++ found) := by
  induction fuel generalizing pos with
  | zero => omega
  | succ fuel ih =>
    have hpos : pos.toNat < pattern.length := by
      by_contra hend
      rw [List.drop_eq_nil_of_le (Nat.not_lt.mp hend)] at hne
      obtain ⟨variants, hmem, -⟩ := hne
      cases hmem
    have hnext := toNat_pos_add_one hlen hpos
    have hdrop := List.drop_eq_getElem_cons hpos
    rw [Index.walkFirst, if_neg fun hge =>
      absurd hpos (Nat.not_lt.mpr ((patternLen_le hlen pos).mp hge)),
      List.getElem?_eq_getElem hpos]
    simp only [Option.bind_eq_bind, Option.bind_some]
    by_cases hwild : pattern[pos.toNat] = []
    · rw [if_pos (by rw [hwild]; exact Nat.one_pos)]
      rw [hdrop, hwild] at hne
      obtain ⟨found, hfound, hwalk⟩ := ih (pos + 1) (by omega) (by
        rw [hnext]
        simpa using hne)
      refine ⟨found, ⟨hfound.mem, fun l hl => ?_⟩, hwalk⟩
      rw [hfound.count l hl, hdrop, hwild, Log.hits, if_pos rfl, Nat.one_mul, hnext]
    · rw [if_neg (by simpa using hwild)]
      choose visited hvisited hiterate using h.exists_visited first
      have hwalk : ∀ l ∈ logs, ∀ s, tt.walkNexts onMatched pattern
          ⟨l.id, .ofNat l.topics.length⟩ fuel (pos + 1) s = _ := fun l hl s =>
        h.walkNexts hlen hl rfl (hmatched l hl) fuel (pos + 1) (by omega) s
      have hnil : pattern ≠ [] := by
        rintro rfl
        cases hpos
      refine ⟨_, found_variants hlen hpos hwild last fun v => hvisited v pos,
        forEach_append _ (fun v _ s => ?_) s⟩
      rw [Option.getD_some, hiterate v pos]
      refine walkKeys_visited hlen hnil ?_ (hvisited v pos).ordered _ ?_ _ last v pos s
      · exact fun l hl => h.storable l (((hvisited v pos).mem l).mp hl).1
      · exact fun l hl s => hwalk l (((hvisited v pos).mem l).mp hl).1 s

/-- `limitPattern` keeps a pattern that is short enough and not all wildcards. -/
theorem limitPattern_eq (hlen : pattern.length ≤ maxTopicsCount)
    (hne : ∃ variants ∈ pattern, variants ≠ []) : limitPattern pattern = .ok pattern := by
  obtain ⟨variants, hmem, hvariants⟩ := hne
  rw [limitPattern, List.take_of_length_le hlen, if_pos]
  exact List.any_eq_true.mpr ⟨variants, hmem, by simpa using List.length_pos_iff.mpr hvariants⟩

/-- `FindInBlocks` finds the logs that are held, each as often as the pattern hits it. -/
theorem Holds.findInBlocks (h : tt.Holds logs) {first last : UInt64} (hle : first ≤ last)
    (hlen : pattern.length ≤ maxTopicsCount) (hne : ∃ variants ∈ pattern, variants ≠ []) :
    ∃ found, tt.findInBlocks first last pattern = .ok found ∧
      Found logs first last pattern 0 found := by
  obtain ⟨found, hfound, hwalk⟩ := h.walkFirst hlen
    (fun rec s => (rec.fetch tt.logrec).map fun l => (true, s ++ [l]))
    (fun l hl s => by rw [h.fetch hl]; rfl) first last (maxTopicsCount + 1) 0
    (by rw [UInt8.toNat_zero]; omega) hne []
  refine ⟨found, ?_, hfound⟩
  rw [Index.findInBlocks, forEachInBlocks, if_neg (UInt64.not_lt.mpr hle), limitPattern_eq hlen hne]
  simp only [searchLazy, hwalk, List.nil_append]

end Index

/-- Logs that are pushed are held. -/
theorem Index.holds_push {logs : List Log}
    (hdistinct : (logs.map fun l => (l.blockNumber, l.txHash, l.index)).Nodup)
    (htopics : ∀ l ∈ logs, l.topics.length ≤ maxTopicsCount) :
    (Index.new.push logs).Holds logs := by
  refine holds_new.push htopics ?_
  rw [List.nil_append]
  refine List.Nodup.of_map (fun id : ID => (id.blockNumber, id.txHash, id.index)) ?_
  rw [List.map_map]
  simpa [Function.comp_def] using hdistinct

/-- A log matches a pattern: every position that is not a wildcard has its topic. -/
def Log.Matches (l : Log) (pattern : List (List Hash)) : Prop :=
  ∀ pos variants, pattern[pos]? = some variants → variants ≠ [] →
    ∃ v ∈ variants, l.topicAt pos = some v

/-- The number of hits is a product over the positions that are not wildcards. -/
theorem Log.hits_iff {P : ℕ → Prop} (hone : P 1) (hmul : ∀ a b, P (a * b) ↔ P a ∧ P b) {l : Log}
    {pos : ℕ} {pattern : List (List Hash)} :
    P (l.hits pos pattern) ↔ ∀ i variants, pattern[i]? = some variants → variants ≠ [] →
      P (variants.countP (l.topicAt (pos + i) = some ·)) := by
  induction pattern generalizing pos with
  | nil => simp [hits, hone]
  | cons variants pattern ih =>
    have hnext : ∀ i, pos + 1 + i = pos + (i + 1) := fun i => by omega
    have hhead : P (if variants = [] then 1 else variants.countP (l.topicAt pos = some ·)) ↔
        (variants ≠ [] → P (variants.countP (l.topicAt pos = some ·))) := by
      split
      · next hwild => simp [hwild, hone]
      · next hwild => simp [hwild]
    rw [hits, hmul, hhead, ih]
    simp only [hnext]
    refine ⟨?_, ?_⟩
    · rintro ⟨hfirst, hrest⟩ i variants' hi
      cases i with
      | zero =>
        cases hi
        exact hfirst
      | succ i => exact hrest i variants' hi
    · intro hall
      exact ⟨hall 0 variants rfl, fun i variants' hi => hall (i + 1) variants' hi⟩

theorem Log.hits_zero_pos {l : Log} {pattern : List (List Hash)} :
    0 < l.hits 0 pattern ↔ l.Matches pattern := by
  have hmul : ∀ a b : ℕ, 0 < a * b ↔ 0 < a ∧ 0 < b := fun a b => by
    rw [Nat.pos_iff_ne_zero, Nat.mul_ne_zero_iff, ← Nat.pos_iff_ne_zero, ← Nat.pos_iff_ne_zero]
  rw [hits_iff Nat.one_pos hmul, Matches]
  simp only [Nat.zero_add, List.countP_pos_iff, decide_eq_true_eq]

/-- A search over logs that are pushed finds the matching ones of the blocks, and returns them as
they were pushed. -/
theorem findInBlocks_correct (logs : List Log)
    (hdistinct : (logs.map fun l => (l.blockNumber, l.txHash, l.index)).Nodup)
    (htopics : ∀ l ∈ logs, l.topics.length ≤ 255) (first last : UInt64) (hle : first ≤ last)
    (pattern : List (List Hash)) (hlen : pattern.length ≤ 255)
    (hne : ∃ variants ∈ pattern, variants ≠ []) :
    ∃ found, (Index.new.push logs).findInBlocks first last pattern = .ok found ∧
      (∀ l ∈ logs, l ∈ found ↔
        (first ≤ l.blockNumber ∧ l.blockNumber ≤ last) ∧ pattern.length - 1 ≤ l.topics.length ∧
          ∀ (pos : ℕ) variants, pattern[pos]? = some variants → variants ≠ [] →
            ∃ v ∈ variants, (l.address.toHash :: l.topics)[pos]? = some v) ∧
      ∀ l ∈ found, l ∈ logs := by
  obtain ⟨found, hfind, hfound⟩ := (Index.holds_push hdistinct htopics).findInBlocks hle hlen hne
  refine ⟨found, hfind, fun l hl => ?_, hfound.mem⟩
  rw [← List.count_pos_iff, hfound.count l hl]
  split
  · next hscope =>
    rw [List.drop_zero, Log.hits_zero_pos]
    exact ⟨fun hmatches => ⟨⟨hscope.1, hscope.2.1⟩, hscope.2.2, hmatches⟩, fun h => h.2.2⟩
  · next hscope =>
    refine ⟨fun h => absurd h (Nat.lt_irrefl 0), fun h => absurd ?_ hscope⟩
    exact ⟨h.1.1, h.1.2, h.2.1⟩

/-! ## Two logs -/

/-- A log with two topics. -/
def moveLog : Log where
  blockNumber := 5
  txHash := copyBytes 32 [9]
  index := 0
  topics := [copyBytes 32 [1], copyBytes 32 [2]]
  blockHash := copyBytes 32 [7]
  address := copyBytes 20 [3]
  data := [1, 2, 3]

/-- A log of the next block with one topic. -/
def burnLog : Log where
  blockNumber := 6
  txHash := copyBytes 32 [9]
  index := 1
  topics := [copyBytes 32 [1]]
  blockHash := copyBytes 32 [8]
  address := copyBytes 20 [3]
  data := []

/-- The second topic is not constrained, but has to be there. -/
def movePattern : List (List Hash) := [[], [copyBytes 32 [4], copyBytes 32 [1]], []]

theorem findInBlocks_correct_moveLog :
    ∃ found, (Index.new.push [burnLog, moveLog]).findInBlocks 4 6 movePattern = .ok found ∧
      moveLog ∈ found ∧ burnLog ∉ found := by
  obtain ⟨found, hfind, hmem, -⟩ :=
    findInBlocks_correct [burnLog, moveLog] (by decide) (by decide) 4 6 (by decide) movePattern
      (by decide) ⟨[copyBytes 32 [4], copyBytes 32 [1]], by decide, by decide⟩
  refine ⟨found, hfind, ?_, ?_⟩
  · refine (hmem moveLog (by simp)).mpr ⟨by decide, by decide, ?_⟩
    intro pos variants hpos hne
    rcases pos with _ | _ | _ | pos
    · cases hpos
      exact absurd rfl hne
    · cases hpos
      exact ⟨copyBytes 32 [1], by simp, rfl⟩
    · cases hpos
      exact absurd rfl hne
    · cases hpos
  · intro hburn
    have hfew := ((hmem burnLog (by simp)).mp hburn).2.1
    exact absurd hfew (by decide)

end Zilionixx.Topicsdb
