import Provenance.Proofs.Disk.Components
import Provenance.Proofs.Infra.Compile
import Provenance.Proofs.Infra.Slugs

/-!
# What resources permit

A permit is read off the properties of a resource alone: the statements of a policy, the role of a member,
the mode of a permission, the volumes of a job.  It says whether writing is allowed, and by which texts the
storage is meant (`Permit`).  Each provider has its own way to say so (`Idiom`).

A provider `Permits` in an idiom if nothing but what runs a step and its access resources permits anything,
if each permit is on storage that the step is bound to, in the way in which it is bound, and if no two
storages are meant by the same texts.  The four providers do (`Provider.Speaks.permits`).
-/

namespace Provenance

/-! ## Values -/

namespace Json

/-- The value of a field, or null. -/
def value (j : Json) (key : String) : Json := (j.field? key).getD .null

/-- The items, or none if this is no list. -/
def items (j : Json) : List Json := j.list?.getD []

/-- The text, or the empty one if this is no text. -/
def word (j : Json) : String := j.text?.getD ""

/-- The texts among the items. -/
def words (j : Json) : List String := j.items.filterMap text?

/-- Whether this is true. -/
def holds : Json → Bool
  | .bool b => b
  | _ => false

@[simp] theorem items_list (js : List Json) : (list js).items = js := rfl

@[simp] theorem word_text (s : String) : (text s).word = s := rfl

@[simp] theorem holds_bool (b : Bool) : (bool b).holds = b := rfl

@[simp] theorem words_texts (ss : List String) : (texts ss).words = ss := by
  unfold words texts
  rw [items_list, List.filterMap_map]
  exact List.filterMap_some

@[simp] theorem value_fields (entries : List (String × Json)) (key : String) :
    (fields entries).value key = ((Index.ofList entries).find? key).getD .null := rfl

end Json

namespace Resource

variable {r : Resource} {key other word : String} {v : Json} {ids : List String}

/-- The value of a property, or null. -/
def value (r : Resource) (key : String) : Json := (r.property? key).getD .null

@[simp] theorem getD_property? : (r.property? key).getD .null = r.value key := rfl

@[simp] theorem value_set_self : (r.set key v).value key = v := by
  unfold value property? set
  rw [Index.find?_insert_self]
  rfl

@[simp] theorem value_set_of_ne (h : other ≠ key) : (r.set key v).value other = r.value other := by
  unfold value property? set
  rw [Index.find?_insert_of_ne _ _ h]

@[simp] theorem value_text_self : (r.text key word).value key = .text word := value_set_self

@[simp] theorem value_text_of_ne (h : other ≠ key) : (r.text key word).value other = r.value other :=
  value_set_of_ne h

@[simp] theorem value_setSome_of_ne (h : other ≠ key) (v : Option Json) :
    (r.setSome key v).value other = r.value other := by
  cases v with
  | none => rfl
  | some v => exact value_set_of_ne h

@[simp] theorem value_depend (id : String) : (r.depend id).value key = r.value key := rfl

@[simp] theorem value_dependAll : (r.dependAll ids).value key = r.value key := by
  rw [dependAll_eq]
  rfl

theorem value_congr {q : Resource} (h : q.properties = r.properties) (key : String) :
    q.value key = r.value key := by
  unfold value property?
  rw [h]

end Resource

/-! ## Permits -/

/-- A permit to use the storage that is meant by these texts. -/
structure Permit where
  writes : Bool
  target : List String

/-- How the resources of a provider speak of storage: what they permit, and by which texts a storage is
meant. -/
structure Idiom where
  permits : Resource → List Permit
  target : Resource → List String

namespace Aws

/-- The actions that write. -/
def writing : List String :=
  ["s3:PutObject", "s3:DeleteObject", "glue:UpdateTable", "glue:BatchCreatePartition",
    "elasticfilesystem:ClientWrite"]

/-- A policy permits what its statements allow. -/
def idiom (region : String) : Idiom where
  permits r :=
    if r.kind = "aws_iam_role_policy" then
      ((r.value "policy").value "Statement").items.map fun statement =>
        ⟨(statement.value "Action").words.any (· ∈ writing), (statement.value "Resource").words⟩
    else []
  target := arns region

end Aws

namespace Dataproc

/-- The roles that write. -/
def writing : List String := ["roles/storage.objectAdmin", "roles/bigquery.dataEditor"]

/-- A membership permits what its role does. -/
def idiom : Idiom where
  permits r :=
    if r.kind = "google_bigquery_table_iam_member" then
      [⟨(r.value "role").word ∈ writing, ["table_id", (r.value "table_id").word]⟩]
    else if r.kind = "google_storage_bucket_iam_member" then
      [⟨(r.value "role").word ∈ writing, ["bucket", (r.value "bucket").word]⟩]
    else []
  target r :=
    if r.kind = "google_bigquery_table" then ["table_id", (r.value "table_id").word]
    else ["bucket", (r.value "name").word]

end Dataproc

namespace Kubernetes

/-- A job may use the volumes that it mounts, and a role permits what its verbs do. -/
def idiom : Idiom where
  permits r :=
    if r.kind = "kubernetes_job" then
      (r.value "volumes").items.map fun volume =>
        ⟨!(volume.value "read_only").holds, [(volume.value "claim_name").word]⟩
    else if r.kind = "kubernetes_role" then
      (r.value "rules").items.flatMap fun rule => (rule.value "resource_names").words.map fun name =>
        ⟨(rule.value "verbs").words.any (· ≠ "get"), [name]⟩
    else []
  target r := [r.name]

end Kubernetes

namespace Machine

/-- A permission is for a path, and its mode says whether files may be written. -/
def idiom : Idiom where
  permits r :=
    if r.kind = "local_file_permission" then
      [⟨(r.value "mode").word = "rw", [(r.value "path").word]⟩]
    else []
  target r := [(r.value "path").word]

end Machine

namespace Provider

/-- The idioms of the four providers. -/
inductive Speaks : Provider → Idiom → Prop
  | aws (region : String) : Speaks (Aws.provider region) (Aws.idiom region)
  | dataproc (project region : String) : Speaks (Dataproc.provider project region) Dataproc.idiom
  | kubernetes (space image : String) : Speaks (Kubernetes.provider space image) Kubernetes.idiom
  | machine (root : String) : Speaks (Machine.provider root) Machine.idiom

theorem Speaks.standard {p : Provider} {i : Idiom} (h : p.Speaks i) : p.Standard := by
  cases h with
  | aws region => exact .aws region
  | dataproc project region => exact .dataproc project region
  | kubernetes space image => exact .kubernetes space image
  | machine root => exact .machine root

/-- What a provider makes permits a step to use the storage that it is bound to, in the way in which it is
bound, and nothing else. -/
structure Permits (p : Provider) (i : Idiom) : Prop where
  plays : ∀ r, i.permits r ≠ [] → r.Plays .compute ∨ r.Plays .access
  congr : ∀ r q, q.kind = r.kind → q.properties = r.properties → i.permits q = i.permits r
  bound : ∀ s bs made, p.compute s bs = .ok made → ∀ r ∈ made.compute :: made.access,
    ∀ permit ∈ i.permits r, ∃ e ∈ stored bs, permit.target = i.target e.2.2 ∧
      (permit.writes = true → e.1 = .write)
  target : ∀ x y r q, p.stored? x = some r → p.stored? y = some q → i.target q = i.target r → q.id = r.id

end Provider

/-! ## The four providers -/

/-- Storage is made with its kind, its name and its properties. -/
theorem Provider.exists_of_stored? {p : Provider} {x : Asset} {r : Resource} (h : p.stored? x = some r) :
    ∃ spec made, p.storage x spec = .ok made ∧ r.kind = made.kind ∧ r.name = made.name ∧
      r.properties = made.properties := by
  obtain ⟨spec, made, -, hmade, rfl⟩ := stored?_eq_some_iff.1 h
  exact ⟨spec, made, hmade, rfl, rfl, rfl⟩

/-- Texts that begin in different ways are different. -/
theorem Naming.append_ne {a b : String} (ha : ¬ a.toList <+: b.toList) (hb : ¬ b.toList <+: a.toList)
    (s t : String) : a ++ s ≠ b ++ t := by
  intro h
  have hlist := congrArg String.toList h
  rw [String.toList_append, String.toList_append] at hlist
  rcases List.prefix_or_prefix_of_prefix (List.prefix_append a.toList s.toList)
    (hlist ▸ List.prefix_append b.toList t.toList) with hab | hba
  · exact ha hab
  · exact hb hba

/-- What was swapped is swapped back, unless the new character was there before. -/
theorem Text.swap_swap {a b : Char} {s : String} (h : b ∉ s.toList) : swap b a (swap a b s) = s := by
  have hback : (s.toList.map fun c => if c = a then b else c).map (fun c => if c = b then a else c) =
      s.toList := by
    rw [List.map_map]
    refine (List.map_congr_left fun c hc => ?_).trans (List.map_id _)
    have hcb : c ≠ b := fun heq => h (heq ▸ hc)
    by_cases hca : c = a
    · simp [hca]
    · simp [hca, hcb]
  unfold swap
  rw [String.toList_ofList, hback, String.ofList_toList]

/-- In the names of storage nothing stands for a separator but the separator. -/
theorem Naming.eq_of_swap_storage {x y : Address} {room : ℕ} (hroom : 13 ≤ room)
    (h : Text.swap '-' '_' (storage x room '-') = Text.swap '-' '_' (storage y room '-')) :
    storage x room '-' = storage y room '-' := by
  have hfree : ∀ z : Address, '_' ∉ (storage z room '-').toList := by
    intro z hz
    rcases (named_storage z room hroom).slug.sign_or_sep '_' hz with hsign | hsep
    · exact absurd hsign (by decide)
    · exact absurd hsep (by decide)
  rw [← Text.swap_swap (hfree x), h, Text.swap_swap (hfree y)]

namespace Aws

variable {region : String} {s : Step} {access : Access} {r : Resource}

theorem writing_actions {kind : String} (h : (actions kind access).any (· ∈ writing) = true) :
    access = .write := by
  cases access with
  | write => rfl
  | read =>
    unfold actions at h
    split_ifs at h <;> exact absurd h (by decide)

theorem permits_of_kind (h : r.kind ≠ "aws_iam_role_policy") : (idiom region).permits r = [] := if_neg h

theorem permits_policy : (idiom region).permits (policy region s access r) =
    [⟨(actions r.kind access).any (· ∈ writing), arns region r⟩] := by
  simp [idiom, policy, Index.ofList, Index.find?_insert_of_ne]

/-- The texts by which policies mean a storage tell its kind and its name. -/
theorem id_eq_of_arns {x y : Asset} {q : Resource} (hr : (provider region).stored? x = some r)
    (hq : (provider region).stored? y = some q) (h : arns region q = arns region r) : q.id = r.id := by
  obtain ⟨spec, made, hmade, hkind, hname, -⟩ := Provider.exists_of_stored? hr
  obtain ⟨spec', made', hmade', hkind', hname', -⟩ := Provider.exists_of_stored? hq
  obtain rfl := Except.ok.inj hmade
  obtain rfl := Except.ok.inj hmade'
  rw [(plays_store region _ _).2] at hname hname'
  have hservice : ∀ s t : String, "arn:aws:glue:" ++ s ≠ "arn:aws:elasticfilesystem:" ++ t :=
    Naming.append_ne (by decide) (by decide)
  unfold arns at h
  unfold store at hkind hkind'
  rw [Resource.id, Resource.id]
  cases hmedium : spec.medium <;> cases hmedium' : spec'.medium <;>
    simp [hmedium, hmedium'] at hkind hkind' <;> simp [hkind, hkind'] at h ⊢
  case objectStore.objectStore => rw [h]
  case table.table =>
    rw [hname, hname'] at h ⊢
    rw [Naming.eq_of_swap_storage (by decide) h]
  case table.volume =>
    simp only [String.append_assoc] at h
    exact absurd h.symm (hservice _ _)
  case volume.table =>
    simp only [String.append_assoc] at h
    exact absurd h (hservice _ _)
  case volume.volume => rw [h]

theorem permits (region : String) : (provider region).Permits (idiom region) where
  plays r h := by
    by_cases hkind : r.kind = "aws_iam_role_policy"
    · exact .inr (by rw [Resource.Plays, hkind]; decide)
    · exact absurd (permits_of_kind hkind) h
  congr r q hkind hproperties := by
    simp only [idiom, hkind, Resource.value_congr hproperties]
  bound s bs made hmade r hr permit hpermit := by
    obtain rfl := of_compute hmade
    simp only [List.mem_cons, List.mem_map] at hr
    rcases hr with rfl | rfl | ⟨e, he, rfl⟩
    · rw [permits_of_kind (by simp [function])] at hpermit
      exact absurd hpermit List.not_mem_nil
    · rw [permits_of_kind (by simp [role])] at hpermit
      exact absurd hpermit List.not_mem_nil
    · rw [permits_policy] at hpermit
      obtain rfl := List.mem_singleton.1 hpermit
      exact ⟨e, he, rfl, writing_actions⟩
  target x y r q hr hq h := id_eq_of_arns hr hq h

end Aws

namespace Dataproc

variable {project region : String} {s : Step} {access : Access} {r : Resource}

theorem writing_roleOf {table : Bool} (h : roleOf table access ∈ writing) : access = .write := by
  cases access with
  | write => rfl
  | read => cases table <;> exact absurd h (by decide)

theorem permits_of_kind (htable : r.kind ≠ "google_bigquery_table_iam_member")
    (hbucket : r.kind ≠ "google_storage_bucket_iam_member") : idiom.permits r = [] := by
  simp [idiom, htable, hbucket]

theorem permits_member : idiom.permits (member project s access r) =
    [⟨roleOf (r.kind == "google_bigquery_table") access ∈ writing, idiom.target r⟩] := by
  unfold member
  by_cases htable : r.kind = "google_bigquery_table"
  · simp [idiom, htable]
  · simp [idiom, htable]

/-- What the texts of a storage are made of. -/
theorem target_store {x : Asset} {spec : StorageSpec} (h : store project region x spec = .ok r) :
    (r.kind = "google_storage_bucket" ∧ r.name = Naming.storage x.address room '-' ∧
      (r.value "name").word = project ++ "-" ++ r.name) ∨
    (r.kind = "google_bigquery_table" ∧ r.name = Naming.storage x.address room '-' ∧
      (r.value "table_id").word = Text.swap '-' '_' r.name) := by
  unfold store at h
  cases hmedium : spec.medium with
  | objectStore =>
    simp only [hmedium, Except.ok.injEq] at h
    subst h
    simp
  | table =>
    simp only [hmedium, Except.ok.injEq] at h
    subst h
    simp
  | volume => simp [hmedium] at h

/-- The texts by which memberships mean a storage tell its kind and its name. -/
theorem id_eq_of_target {x y : Asset} {q : Resource} (hr : (provider project region).stored? x = some r)
    (hq : (provider project region).stored? y = some q) (h : idiom.target q = idiom.target r) :
    q.id = r.id := by
  obtain ⟨spec, made, hmade, hkind, hname, hproperties⟩ := Provider.exists_of_stored? hr
  obtain ⟨spec', made', hmade', hkind', hname', hproperties'⟩ := Provider.exists_of_stored? hq
  have hvalue := Resource.value_congr hproperties
  have hvalue' := Resource.value_congr hproperties'
  rw [Resource.id, Resource.id, hkind, hname, hkind', hname']
  unfold idiom at h
  dsimp only at h
  rw [hkind, hkind', hvalue, hvalue, hvalue', hvalue'] at h
  rcases target_store hmade with ⟨hkind, hname, hword⟩ | ⟨hkind, hname, hword⟩ <;>
    rcases target_store hmade' with ⟨hkind', hname', hword'⟩ | ⟨hkind', hname', hword'⟩ <;>
    simp [hkind, hkind', hword, hword'] at h
  · rw [hkind, hkind', h]
  · rw [hname, hname'] at h ⊢
    rw [hkind, hkind', Naming.eq_of_swap_storage (by decide) h]

theorem permits (project region : String) : (provider project region).Permits idiom where
  plays r h := by
    by_cases htable : r.kind = "google_bigquery_table_iam_member"
    · exact .inr (by rw [Resource.Plays, htable]; decide)
    · by_cases hbucket : r.kind = "google_storage_bucket_iam_member"
      · exact .inr (by rw [Resource.Plays, hbucket]; decide)
      · exact absurd (permits_of_kind htable hbucket) h
  congr r q hkind hproperties := by
    simp only [idiom, hkind, Resource.value_congr hproperties]
  bound s bs made hmade r hr permit hpermit := by
    obtain ⟨compute, hcompute, rfl⟩ := map_eq_ok_iff.1 hmade
    simp only [List.mem_cons, List.mem_map] at hr
    rcases hr with rfl | rfl | ⟨e, he, rfl⟩
    · have hplays : r.Plays .compute := (plays_runner hcompute).1
      have hother : ∀ kind ∈ Part.access.kinds, r.kind ≠ kind := by
        rintro kind hmem rfl
        exact absurd (hplays.unique hmem) (by decide)
      rw [permits_of_kind (hother _ (by decide)) (hother _ (by decide))] at hpermit
      exact absurd hpermit List.not_mem_nil
    · rw [permits_of_kind (by simp [account]) (by simp [account])] at hpermit
      exact absurd hpermit List.not_mem_nil
    · rw [permits_member] at hpermit
      obtain rfl := List.mem_singleton.1 hpermit
      exact ⟨e, he, rfl, fun hwrites => writing_roleOf (of_decide_eq_true hwrites)⟩
  target x y r q hr hq h := id_eq_of_target hr hq h

end Dataproc

namespace Kubernetes

variable {space image : String} {s : Step} {r : Resource}

theorem permits_of_kind (hjob : r.kind ≠ "kubernetes_job") (hrole : r.kind ≠ "kubernetes_role") :
    idiom.permits r = [] := by
  simp [idiom, hjob, hrole]

theorem permits_job {used : List (Access × Asset × Resource)} :
    idiom.permits (job space image s (used.map fun e => mount e.1 e.2.1 e.2.2)) =
      used.map fun e => ⟨!(e.1 == .read), idiom.target e.2.2⟩ := by
  simp [idiom, job, inSpace, mount, Index.ofList, Index.find?_insert_of_ne]

theorem permits_role {claims : List Resource} :
    idiom.permits (role space s claims) = claims.map fun claim => ⟨false, idiom.target claim⟩ := by
  simp [idiom, role, inSpace, Index.ofList, Index.find?_insert_of_ne]

theorem kind_of_stored? {x : Asset} (h : (provider space image).stored? x = some r) :
    r.kind = "kubernetes_persistent_volume_claim" := by
  obtain ⟨spec, made, hmade, hkind, -⟩ := Provider.exists_of_stored? h
  exact hkind.trans (of_claim hmade).1

theorem permits (space image : String) : (provider space image).Permits idiom where
  plays r h := by
    by_cases hjob : r.kind = "kubernetes_job"
    · exact .inl (by rw [Resource.Plays, hjob]; decide)
    · by_cases hrole : r.kind = "kubernetes_role"
      · exact .inr (by rw [Resource.Plays, hrole]; decide)
      · exact absurd (permits_of_kind hjob hrole) h
  congr r q hkind hproperties := by
    simp only [idiom, hkind, Resource.value_congr hproperties]
  bound s bs made hmade r hr permit hpermit := by
    obtain rfl := Except.ok.inj hmade
    simp only [List.mem_cons, List.not_mem_nil, or_false] at hr
    rcases hr with rfl | rfl | rfl | rfl
    · rw [permits_job] at hpermit
      obtain ⟨e, he, rfl⟩ := List.mem_map.1 hpermit
      obtain ⟨access, x, claim⟩ := e
      cases access with
      | write => exact ⟨_, he, rfl, fun _ => rfl⟩
      | read => exact ⟨_, he, rfl, fun hwrites => absurd hwrites Bool.false_ne_true⟩
    · rw [permits_of_kind (by simp [account, inSpace]) (by simp [account, inSpace])] at hpermit
      exact absurd hpermit List.not_mem_nil
    · rw [permits_role, List.map_map] at hpermit
      obtain ⟨e, he, rfl⟩ := List.mem_map.1 hpermit
      exact ⟨e, he, rfl, fun hwrites => absurd hwrites Bool.false_ne_true⟩
    · rw [permits_of_kind (by simp [roleBinding, inSpace]) (by simp [roleBinding, inSpace])] at hpermit
      exact absurd hpermit List.not_mem_nil
  target x y r q hr hq h := by
    rw [Resource.id, Resource.id, kind_of_stored? hr, kind_of_stored? hq, (List.cons.inj h).1]

end Kubernetes

namespace Machine

variable {root : String} {s : Step} {access : Access} {r : Resource}

theorem permits_of_kind (h : r.kind ≠ "local_file_permission") : idiom.permits r = [] := if_neg h

theorem permits_permission : idiom.permits (permission s access r) =
    [⟨access = .write, idiom.target r⟩] := by
  cases access <;> simp [idiom, permission]

/-- A directory is meant by its path. -/
theorem target_of_stored? {x : Asset} (h : (provider root).stored? x = some r) :
    r.kind = "local_directory" ∧ r.name = Naming.storage x.address room '-' ∧
      idiom.target r = [Disk.Path.join root r.name] := by
  obtain ⟨spec, made, hmade, hkind, hname, hproperties⟩ := Provider.exists_of_stored? h
  obtain rfl := Except.ok.inj hmade
  unfold idiom
  dsimp only
  rw [hkind, hname, Resource.value_congr hproperties]
  simp [directory]

/-- Directories under one root are told apart by their paths. -/
theorem name_eq_of_join {x y : Address} (h : Disk.Path.join root (Naming.storage x room '-') =
    Disk.Path.join root (Naming.storage y room '-')) :
    Naming.storage x room '-' = Naming.storage y room '-' := by
  have hstart : ∀ z : Address, (Naming.storage z room '-').startsWith "/" = false := by
    intro z
    rw [← Bool.not_eq_true, Disk.Path.startsWith_slash_iff]
    intro hslash
    rcases (Naming.named_storage z room (by decide)).slug.sign_or_sep '/'
      (hslash.subset (List.mem_singleton_self _)) with hsign | hsep
    · exact absurd hsign (by decide)
    · exact absurd hsep (by decide)
  unfold Disk.Path.join at h
  rw [hstart, hstart] at h
  simp only [Bool.false_eq_true, if_false] at h
  split at h
  · exact (String.append_right_inj _).1 h
  · exact (String.append_right_inj _).1 h

theorem permits (root : String) : (provider root).Permits idiom where
  plays r h := by
    by_cases hkind : r.kind = "local_file_permission"
    · exact .inr (by rw [Resource.Plays, hkind]; decide)
    · exact absurd (permits_of_kind hkind) h
  congr r q hkind hproperties := by
    simp only [idiom, hkind, Resource.value_congr hproperties]
  bound s bs made hmade r hr permit hpermit := by
    obtain rfl := Except.ok.inj hmade
    simp only [List.mem_cons, List.mem_map] at hr
    rcases hr with rfl | ⟨e, he, rfl⟩
    · rw [permits_of_kind (by simp [process])] at hpermit
      exact absurd hpermit List.not_mem_nil
    · rw [permits_permission] at hpermit
      obtain rfl := List.mem_singleton.1 hpermit
      exact ⟨e, he, rfl, fun hwrites => of_decide_eq_true hwrites⟩
  target x y r q hr hq h := by
    obtain ⟨hkind, hname, htarget⟩ := target_of_stored? hr
    obtain ⟨hkind', hname', htarget'⟩ := target_of_stored? hq
    rw [htarget, htarget', hname, hname'] at h
    rw [Resource.id, Resource.id, hkind, hkind', hname, hname', name_eq_of_join (List.cons.inj h).1]

end Machine

theorem Provider.Speaks.permits {p : Provider} {i : Idiom} (h : p.Speaks i) : p.Permits i := by
  cases h with
  | aws region => exact Aws.permits region
  | dataproc project region => exact Dataproc.permits project region
  | kubernetes space image => exact Kubernetes.permits space image
  | machine root => exact Machine.permits root

end Provenance
