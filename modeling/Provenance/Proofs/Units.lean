import Provenance.Infra.Provider.Dataproc
import Provenance.Proofs.Infra.Provider
import Provenance.Proofs.Session

/-!
# Seconds, days and milliseconds

Two translations change a unit.  AWS watches the duration of a function in milliseconds where a task gives
seconds, and BigQuery lets a table expire after milliseconds where storage gives days.  Both multiply words
of 64 bits.  A number of days is a word of 32 bits, so its product fits (`Dataproc.toNat_expiration`); a
number of seconds is a word of 64 bits already, and where the product does not fit the translation panics.

* `Aws.thresholds_alarms`: the thresholds that are watched.
* `Dataproc.expiration_store`: the time after which a table expires.
* `Provider.units_of_translation`: **the time of a table is exact, and the threshold is exact if there is
  one; there is one if the milliseconds fit into 64 bits.**
* `Provider.exists_overflowing_limit`: a limit of half a billion years that cannot be watched.
-/

namespace Provenance

/-! ## Durations -/

namespace Aws

variable {s : Step} {m : Monitoring}

/-- The thresholds of the alarms on how long the function of a step runs. -/
def thresholds (s : Step) (alarms : List Resource) : List (Option Json) :=
  (alarms.filter (·.name = functionName s ++ "-duration")).map (·.property? "threshold")

theorem property?_alarm (ending metric statistic : String) (threshold : UInt64) :
    (alarm s m ending metric statistic threshold).property? "threshold" = some (.nat threshold.toNat) := by
  simp [alarm, Resource.property?, Resource.set, Resource.text, Index.find?_insert_of_ne]

/-- **What is watched**: nothing without a limit, and with one the limit in milliseconds. -/
theorem thresholds_alarms {rs : List Resource} (h : alarms s m = .ok rs) :
    thresholds s rs = m.maxDurationSecs.toList.map fun secs => some (.nat (1000 * secs.toNat)) := by
  rw [alarms_eq] at h
  split at h
  · exact absurd h (by simp)
  rename_i hfits
  obtain rfl := Except.ok.inj h
  have herrors : ((if m.alertOnFailure then [alarm s m "-errors" "Errors" "Sum" 0] else []).filter
      (·.name = functionName s ++ "-duration")) = [] := by
    refine List.filter_eq_nil_iff.2 fun r hr => ?_
    obtain rfl : r = alarm s m "-errors" "Errors" "Sum" 0 := by
      split at hr
      · exact List.mem_singleton.1 hr
      · exact absurd hr List.not_mem_nil
    simp [alarm]
  unfold thresholds
  rw [List.filter_append, herrors, List.nil_append]
  cases hlimit : m.maxDurationSecs with
  | none => rfl
  | some secs =>
    have hname : (alarm s m "-duration" "Duration" "Maximum" (secs * 1000)).name =
        functionName s ++ "-duration" := by
      simp [alarm]
    have hproduct : (secs * 1000).toNat = 1000 * secs.toNat := by
      rw [UInt64.toNat_mul, Nat.mul_comm]
      exact Nat.mod_eq_of_lt (overflows_eq_false_iff.1 (Bool.eq_false_iff.2 hfits) secs hlimit)
    simp only [Option.map_some, Option.toList_some, List.map_cons, List.map_nil]
    rw [List.filter_cons_of_pos (by simpa using hname), List.filter_nil, List.map_singleton,
      property?_alarm, hproduct]

end Aws

/-! ## Expiration -/

namespace Dataproc

/-- The milliseconds of any number of days fit. -/
theorem dayMillis_mul_lt (days : UInt32) : 86400000 * days.toNat < 2 ^ 64 := by
  have hdays : days.toNat < 2 ^ 32 := days.toNat_lt
  omega

theorem toNat_expiration (days : UInt32) : (days.toUInt64 * dayMillis).toNat = 86400000 * days.toNat := by
  have hmul : (days.toUInt64 * dayMillis).toNat = 86400000 * days.toNat % 2 ^ 64 := by
    rw [UInt64.toNat_mul, UInt32.toNat_toUInt64, Nat.mul_comm]
    rfl
  rw [hmul, Nat.mod_eq_of_lt (dayMillis_mul_lt days)]

/-- **When a table expires**: never if no time is given, and else after the days in milliseconds. -/
theorem expiration_store (project region : String) (a : Asset) {spec : StorageSpec}
    (h : spec.medium = .table) : ∃ r, store project region a spec = .ok r ∧
      r.property? "expiration_ms" = spec.retentionDays.map fun days => .nat (86400000 * days.toNat) := by
  unfold store
  rw [h]
  refine ⟨_, rfl, ?_⟩
  cases spec.retentionDays with
  | none => simp [Resource.property?, Resource.setSome, Resource.text, Resource.set, Resource.plain,
      Index.find?_insert_of_ne]
  | some days =>
    rw [Option.map_some, Option.map_some, toNat_expiration]
    simp [Resource.property?, Resource.setSome, Resource.set]

end Dataproc

/-! ## Both -/

namespace Provider

/-- **What becomes of seconds and days.**  AWS translates monitoring exactly if the limit, where there is
one, fits into 64 bits in milliseconds; otherwise the translation overflows.  Where it does translate it
watches one duration for a task that has a limit, and none for one without, and the threshold is a thousand
times the limit.  A table of BigQuery expires after 86,400,000 milliseconds for each day that storage gives,
which fit for every number of days. -/
theorem units_of_translation (region project zone : String) (s : Step) (m : Monitoring) (runner : ResourceId)
    (a : Asset) (spec : StorageSpec) :
    ((∃ alarms, (Aws.provider region).monitoring s m runner = .ok alarms) ↔
      ∀ secs, m.maxDurationSecs = some secs → 1000 * secs.toNat < 2 ^ 64) ∧
    (∀ alarms, (Aws.provider region).monitoring s m runner = .ok alarms → Aws.thresholds s alarms =
      m.maxDurationSecs.toList.map fun secs => some (.nat (1000 * secs.toNat))) ∧
    (∀ fault, (Aws.provider region).monitoring s m runner = .error fault → fault = .overflow) ∧
    (spec.medium = .table → ∃ r, (Dataproc.provider project zone).storage a spec = .ok r ∧
      r.property? "expiration_ms" = spec.retentionDays.map fun days => .nat (86400000 * days.toNat)) ∧
    ∀ days : UInt32, 86400000 * days.toNat < 2 ^ 64 := by
  have heq : (Aws.provider region).monitoring s m runner = Aws.alarms s m := rfl
  rw [heq, ← Aws.overflows_eq_false_iff]
  refine ⟨?_, fun alarms => Aws.thresholds_alarms, fun fault hfault => ?_,
    Dataproc.expiration_store project zone a, Dataproc.dayMillis_mul_lt⟩
  · rw [Aws.alarms_eq]
    cases Aws.overflows m <;> simp
  · rw [Aws.alarms_eq] at hfault
    split at hfault
    · exact (Except.error.inj hfault).symm
    · exact absurd hfault (by simp)

/-- A limit of an hour is watched as 3,600,000 milliseconds, and a table that is kept for a month expires
after 2,592,000,000. -/
theorem units_of_translation_hour : ∃ alarms r,
    (Aws.provider "us-east-1").monitoring (Session.Late.newer Session.Late.copy) ⟨true, some 3600, []⟩ "f" =
      .ok alarms ∧
    Aws.thresholds (Session.Late.newer Session.Late.copy) alarms = [some (.nat 3600000)] ∧
    (Dataproc.provider "p" "europe-west1").storage Session.Late.clean ⟨.table, .csv, false, some 30⟩ =
      .ok r ∧
    r.property? "expiration_ms" = some (.nat 2592000000) := by
  obtain ⟨haws, hthresholds, -, htable, -⟩ := units_of_translation "us-east-1" "p" "europe-west1"
    (Session.Late.newer Session.Late.copy) ⟨true, some 3600, []⟩ "f" Session.Late.clean
    ⟨.table, .csv, false, some 30⟩
  have hfits : ∀ secs : UInt64, some 3600 = some secs → 1000 * secs.toNat < 2 ^ 64 := by
    rintro secs ⟨⟩
    decide
  obtain ⟨alarms, halarms⟩ := haws.2 hfits
  obtain ⟨r, hr, hexpiration⟩ := htable rfl
  exact ⟨alarms, r, halarms, hthresholds alarms halarms, hr, hexpiration⟩

/-- A client gives a task a limit of half a billion years, and AWS cannot translate the monitoring of its
step, since the limit is a number of seconds of 64 bits and its milliseconds are not. -/
theorem exists_overflowing_limit : ∃ (m : Monitoring) (secs : UInt64) (s : Step),
    m.maxDurationSecs = some secs ∧ s.task.monitoring = some m ∧
    (Session.Late.session Session.Late.lasting).Reachable ∧
    (Session.Late.session Session.Late.lasting).graph [Session.Late.report.producedBy 1] =
      .ok (Session.Late.graph Session.Late.lasting) ∧
    s ∈ (Session.Late.graph Session.Late.lasting).steps ∧
    1000 * secs.toNat = 18446744073709552000 ∧
    ∀ runner, (Aws.provider "us-east-1").monitoring s m runner = .error .overflow := by
  have hover : Aws.overflows ⟨false, some 18446744073709552, []⟩ = true := by decide
  exact ⟨⟨false, some 18446744073709552, []⟩, 18446744073709552,
    Session.Late.newer Session.Late.lasting, rfl, rfl, Session.Late.reachable rfl, Session.Late.graph_eq _,
    List.mem_cons_self, rfl, fun _ => (Aws.alarms_eq _ _).trans (if_pos hover)⟩

end Provider

end Provenance
