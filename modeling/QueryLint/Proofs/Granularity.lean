import QueryLint.Dialect.Builtin
import QueryLint.Proofs.Durations
import QueryLint.Proofs.Performance
import QueryLint.Proofs.Quotients

/-!
A time bucket that is suggested is coarse enough.

For whole numbers of milliseconds the rule judges a grouping as exact division would have it: the buckets are too
many exactly if the range is longer than so many buckets as the ratio allows. The suggestion is the least whole
number of seconds that covers the range by exact division. It is written without loss, read back as it is, and
draws no further remark.
-/

namespace QueryLint
set_option autoImplicit false

open Document Issue

namespace Rules.Performance

/-- The least whole number of seconds that covers the range with as many buckets as the ratio allows. -/
def leastBucket (range ratio : Nat) : Nat := ⌈(range : ℚ) / ratio / 1000⌉₊ * 1000

section Least
variable {range ratio : Nat} (hratio : 0 < ratio)
include hratio

theorem le_mul_leastBucket (range : Nat) : range ≤ ratio * leastBucket range ratio := by
  have hpos : (0 : ℚ) < ratio := by exact_mod_cast hratio
  have hceil := Nat.le_ceil ((range : ℚ) / ratio / 1000)
  rw [div_le_iff₀ (by norm_num), div_le_iff₀ hpos, mul_comm] at hceil
  rw [leastBucket]
  exact_mod_cast hceil

theorem lt_leastBucket {bucket : Nat} (h : ratio * bucket < range) : bucket < leastBucket range ratio := by
  have hle := le_mul_leastBucket hratio range
  exact Nat.lt_of_mul_lt_mul_left (h.trans_le hle)

theorem seconds_le (hrange : range < 2 ^ 53) : ⌈(range : ℚ) / ratio / 1000⌉₊ ≤ 2 ^ 46 := by
  have hone : (1 : ℚ) ≤ ratio := by exact_mod_cast hratio
  have hbound : (range : ℚ) ≤ 2 ^ 53 := by exact_mod_cast hrange.le
  have hquotient : (range : ℚ) / ratio ≤ range := div_le_self (Nat.cast_nonneg range) hone
  apply Nat.ceil_le.2
  rw [div_le_iff₀ (by norm_num)]
  push_cast
  linarith

theorem isExact_leastBucket (hrange : range < 2 ^ 53) : Number.IsExact (leastBucket range ratio) :=
  Number.isExact_thousands (seconds_le hratio hrange)

theorem suggestedBucket_ofNat (hpos : 0 < range) (hrange : range < 2 ^ 53) (hle : ratio ≤ 2 ^ 53) :
    suggestedBucket (.ofNat range) (.ofNat ratio) = .ofNat (leastBucket range ratio) := by
  have hthousand : (1000 : Number) = .ofNat 1000 := rfl
  have hceil := Number.ceil_ofNat_div_div hpos hratio (by omega) hrange (Number.isExact_of_le hle)
    (by norm_num : 0 < 1000) (Number.isExact_of_le (by norm_num)) (by norm_num)
  have hseconds := seconds_le hratio hrange
  push_cast at hceil
  rw [suggestedBucket, hthousand, hceil, Number.ofNat_mul (by omega) (by norm_num), leastBucket]

theorem ofText?_toText_leastBucket (hpos : 0 < range) (hrange : range < 2 ^ 53) :
    Duration.ofText? (Duration.toText (.ofNat (leastBucket range ratio))) =
      some (.ofNat (leastBucket range ratio)) := by
  have hseconds := seconds_le hratio hrange
  have hbucket : 0 < leastBucket range ratio := by
    apply lt_leastBucket hratio
    rwa [Nat.mul_zero]
  have hexact := isExact_leastBucket hratio hrange
  -- the text counts seconds or larger units
  have hcount : ∀ u : TimeUnit, u.IsLargest (leastBucket range ratio) →
      leastBucket range ratio / u.milliseconds ≤ 2 ^ 46 := by
    intro u hu
    have hsecond : 1000 ≤ u.milliseconds := hu.2 .second (Nat.dvd_mul_left _ _)
    calc leastBucket range ratio / u.milliseconds ≤ leastBucket range ratio / 1000 :=
          Nat.div_le_div_left hsecond (by norm_num)
      _ = ⌈(range : ℚ) / ratio / 1000⌉₊ := Nat.mul_div_cancel _ (by norm_num)
      _ ≤ 2 ^ 46 := hseconds
  obtain ⟨u, hlargest, htext⟩ := Duration.exists_toText_of_isExact hbucket hexact
    fun u hu => (hcount u hu).trans_lt (by norm_num)
  have hback := Nat.div_mul_cancel hlargest.1
  rw [htext, Duration.ofText?_of_isExact (hlargest.div_pos hbucket) ((hcount u hlargest).trans (by norm_num)), hback]
  rwa [hback]

end Least

/-- What is said of a grouping with too many buckets, by exact division. -/
def finenessIssue (c : Command) (ratio range bucket : Nat) : Issue :=
  .ofCommand c .excessiveGranularity
    (c.name ++ " time bucket " ++ Duration.toText (.ofNat bucket) ++ " over a " ++
      Duration.toText (.ofNat range) ++ " range yields " ++ Number.toText (.ofNat ⌈(range : ℚ) / bucket⌉₊) ++
      " buckets (limit " ++ Number.toText (.ofNat ratio) ++ ")")
    (some ("Use a bucket of at least " ++ Duration.toText (.ofNat (leastBucket range ratio))))

theorem granularityIssues_eq {c : Command} {ratio range bucket : Nat} (hratio : 0 < ratio) (hpos : 0 < range)
    (hrange : range < 2 ^ 53) (hbucket : 0 < bucket) (hexact : Number.IsExact bucket) (hle : bucket ≤ 2 ^ 56)
    (hof : c.timeBucket?.bind Duration.ofValue? = some (.ofNat bucket)) :
    granularityIssues (.ofNat ratio) (some (.ofNat range)) c =
      if ratio * bucket < range then [finenessIssue c ratio range bucket] else [] := by
  have hfine := Number.ofNat_lt_div_iff hpos hbucket hle hrange hexact ratio
  have hceil := Number.ceil_ofNat_div hpos hbucket hle hrange hexact
  unfold granularityIssues
  rw [hof]
  dsimp only
  split
  · rename_i hless
    have hproduct := hfine.1 hless
    have hsmall : ratio ≤ 2 ^ 53 := by
      have := Nat.le_mul_of_pos_right ratio hbucket
      omega
    rw [if_pos hproduct, hceil, suggestedBucket_ofNat hratio hpos hrange hsmall]
    rfl
  · rename_i hnot
    rw [if_neg (hfine.not.1 hnot)]

/-- A grouping in a scope of the document that covers so many milliseconds. -/
structure GroupsOver (d : Document) (fallback : Option Number) (range : Nat) (c : Command) : Prop where
  groups : c.hasRole .group = true
  covers : ∃ s ∈ d.scopes, c ∈ s.commands ∧ rangeOf d fallback s = some (.ofNat range)

def granularityFound (d : Document) (fallback ratio : Option Number) (c : Command) : List Issue :=
  (foundAt c (issues d fallback ratio)).filter fun i => i.code = Rule.excessiveGranularity.code

theorem filter_granularityIssues (ratio : Number) (range : Option Number) (c : Command) :
    (granularityIssues ratio range c).filter (fun i => i.code = Rule.excessiveGranularity.code) =
      granularityIssues ratio range c := by
  rcases granularity_cases ratio range c with ⟨-, message, suggestion, hissues⟩ | ⟨-, hissues⟩
  · rw [hissues]
    exact List.filter_eq_self.2 fun i hi => by simp [List.mem_singleton.1 hi, ofCommand]
  · rw [hissues, List.filter_nil]

theorem GroupsOver.granularityFound_eq {dialect : Dialect} {text : Text} {fallback : Option Number} {range : Nat}
    {c : Command} (h : GroupsOver (parse dialect text) fallback range c) (ratio : Option Number) :
    granularityFound (parse dialect text) fallback ratio c =
      granularityIssues (ratio.getD defaultRatio) (some (.ofNat range)) c := by
  obtain ⟨s, hs, hc, hrange⟩ := h.covers
  obtain ⟨before, after, hcommands⟩ := List.append_of_mem hc
  have hrole : c.role? = some .group := of_decide_eq_true h.groups
  have hother : ∀ role, role ≠ .group → c.hasRole role = false := by
    intro role hne
    rw [Command.hasRole, hrole, decide_eq_false_iff_not, Option.some_inj]
    exact hne.symm
  have hadvice : advice (ratio.getD defaultRatio) (some (.ofNat range)) before c =
      granularityIssues (ratio.getD defaultRatio) (some (.ofNat range)) c := by
    simp [advice, FiltersLate, ProjectsAll, recurring, h.groups, hother]
  -- a grouping bounds the result, so nothing is said of the whole query
  have hbounded : ¬EndsUnbounded s c after := fun hends => hends.2.2 ⟨c, hc, .inr (.inl h.groups)⟩
  rw [granularityFound, foundAt_issues dialect text fallback ratio hs hcommands, hrange, hadvice,
    if_neg hbounded, List.append_nil, filter_granularityIssues]

def BucketWritten (c : Command) (t : Text) : Prop :=
  c.timeBucket? = some (.bare t) ∨ ∃ quote, c.timeBucket? = some (.string t quote)

theorem bucketWritten_of_text {c : Command} {t : Text} (htext : c.timeBucket?.bind Value.text? = some t)
    (hnumber : c.timeBucket?.bind Value.number? = none) : BucketWritten c t := by
  obtain ⟨v, hv, htext⟩ := Option.bind_eq_some_iff.1 htext
  rw [hv, Option.bind_some] at hnumber
  rw [BucketWritten, hv]
  cases v with
  | string text quote =>
    cases htext
    exact .inr ⟨quote, rfl⟩
  | bare word =>
    cases htext
    exact .inl rfl
  | number value raw => cases hnumber
  | _ => cases htext

theorem BucketWritten.ofValue?_eq {c : Command} {t : Text} (h : BucketWritten c t) :
    c.timeBucket?.bind Duration.ofValue? = Duration.ofText? t := by
  rcases h with h | ⟨quote, h⟩
  · rw [h]
    rfl
  · rw [h]
    rfl

/-- A grouping is reported exactly if the range is longer than so many of its buckets as the ratio allows. The
suggested bucket is then read back from its text, is longer and covers the range, and a grouping by it over the
same range is not reported. -/
theorem suggestion_clears {dialect : Dialect} {text : Text} {fallback asked : Option Number} {c : Command}
    {ratio range bucket : Nat} (hratio : 0 < ratio) (hpos : 0 < range) (hrange : range < 2 ^ 53)
    (hbucket : 0 < bucket) (hbound : bucket < 2 ^ 53) (hasked : asked.getD defaultRatio = .ofNat ratio)
    (hover : GroupsOver (parse dialect text) fallback range c)
    (hof : c.timeBucket?.bind Duration.ofValue? = some (.ofNat bucket)) :
    let found := granularityFound (parse dialect text) fallback asked c
    let coarser := leastBucket range ratio
    let suggested := Duration.toText (.ofNat coarser)
    (found ≠ [] ↔ ratio * bucket < range) ∧
    (found ≠ [] → found = [finenessIssue c ratio range bucket] ∧
      found.map Issue.suggestion = [some ("Use a bucket of at least " ++ suggested)] ∧
      Duration.ofText? suggested = some (.finite false coarser) ∧ bucket < coarser ∧ range ≤ ratio * coarser ∧
      ∀ (dialect' : Dialect) (text' : Text) (fallback' : Option Number) (c' : Command),
        GroupsOver (parse dialect' text') fallback' range c' → BucketWritten c' suggested →
        granularityFound (parse dialect' text') fallback' asked c' = []) := by
  intro found coarser suggested
  have hfound : found = if ratio * bucket < range then [finenessIssue c ratio range bucket] else [] := by
    have hexact := Number.isExact_of_le hbound.le
    rw [← granularityIssues_eq hratio hpos hrange hbucket hexact (by omega) hof, ← hasked]
    exact hover.granularityFound_eq asked
  have hreported : found ≠ [] ↔ ratio * bucket < range := by
    rw [hfound]
    split
    · exact iff_of_true (List.cons_ne_nil _ _) ‹_›
    · exact iff_of_false (fun h => h rfl) ‹_›
  refine ⟨hreported, fun hne => ?_⟩
  have hproduct := hreported.1 hne
  have hone : found = [finenessIssue c ratio range bucket] := hfound.trans (if_pos hproduct)
  have hlonger : bucket < coarser := lt_leastBucket hratio hproduct
  have hcovers : range ≤ ratio * coarser := le_mul_leastBucket hratio range
  have hexact : Number.IsExact coarser := isExact_leastBucket hratio hrange
  have hread := ofText?_toText_leastBucket hratio hpos hrange
  refine ⟨hone, by rw [hone]; rfl, by rw [← hexact]; exact hread, hlonger, hcovers, ?_⟩
  intro dialect' text' fallback' c' hover' hwritten
  have hseconds := seconds_le hratio hrange
  have hbucket' : coarser ≤ 2 ^ 56 := (Nat.mul_le_mul_right 1000 hseconds).trans (by norm_num)
  have hof' := hwritten.ofValue?_eq.trans hread
  rw [hover'.granularityFound_eq asked, hasked,
    granularityIssues_eq hratio hpos hrange (hbucket.trans hlonger) hexact hbucket' hof',
    if_neg (Nat.not_lt.2 hcovers)]

/-- A day by the minute, and by the bucket that is suggested. -/
theorem suggestion_clears_day :
    let d := parse Dialect.pipeline "SOURCE x\nRANGE 1d\nLOAD\nGROUP \x7binterval: 1m\x7d"
    let d' := parse Dialect.pipeline "SOURCE x\nRANGE 1d\nLOAD\nGROUP \x7binterval: 173s\x7d"
    ∃ c ∈ d.root, ∃ c' ∈ d'.root, GroupsOver d none 86400000 c ∧
      c.timeBucket?.bind Duration.ofValue? = some (.ofNat 60000) ∧
      granularityFound d none none c = [finenessIssue c 500 86400000 60000] ∧
      GroupsOver d' none 86400000 c' ∧ BucketWritten c' "173s" ∧ granularityFound d' none none c' = [] := by
  intro d d'
  have hmem : (true, some (Number.ofNat 60000)) ∈ d.root.map fun c =>
      (c.hasRole .group, c.timeBucket?.bind Duration.ofValue?) := by
    decide +kernel
  have hmem' : (true, some (Text.ofString "173s"), none) ∈ d'.root.map fun c =>
      (c.hasRole .group, c.timeBucket?.bind Value.text?, c.timeBucket?.bind Value.number?) := by
    decide +kernel
  have hrange : rangeOf d none d.rootScope = some (.ofNat 86400000) := by decide +kernel
  have hrange' : rangeOf d' none d'.rootScope = some (.ofNat 86400000) := by decide +kernel
  obtain ⟨c, hc, heq⟩ := List.mem_map.1 hmem
  obtain ⟨hgroups, hof⟩ := Prod.mk.inj heq
  obtain ⟨c', hc', heq'⟩ := List.mem_map.1 hmem'
  obtain ⟨hgroups', htext⟩ := Prod.mk.inj heq'
  have hover : GroupsOver d none 86400000 c := ⟨hgroups, d.rootScope, List.mem_cons_self, hc, hrange⟩
  have hover' : GroupsOver d' none 86400000 c' := ⟨hgroups', d'.rootScope, List.mem_cons_self, hc', hrange'⟩
  have hwritten : BucketWritten c' "173s" :=
    bucketWritten_of_text (Prod.mk.inj htext).1 (Prod.mk.inj htext).2
  have hsuggested : Duration.toText (.ofNat (leastBucket 86400000 500)) = "173s" := by
    have hseconds : ⌈((86400000 : Nat) : ℚ) / (500 : Nat) / 1000⌉₊ = 173 := by
      rw [Nat.ceil_eq_iff (by norm_num)]
      norm_num
    rw [leastBucket, hseconds]
    decide +kernel
  have hratio : (none : Option Number).getD defaultRatio = .ofNat 500 := rfl
  obtain ⟨hreported, hcleared⟩ := suggestion_clears (by norm_num : 0 < 500) (by norm_num) (by norm_num)
    (by norm_num) (by norm_num) hratio hover hof
  obtain ⟨hfound, -, -, -, -, hagain⟩ := hcleared (hreported.2 (by norm_num))
  rw [hsuggested] at hagain
  exact ⟨c, hc, c', hc', hover, hof, hfound, hover', hwritten, hagain _ _ _ _ hover' hwritten⟩

end Rules.Performance
end QueryLint
