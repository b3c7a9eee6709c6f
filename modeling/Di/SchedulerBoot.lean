import Di.Scheduler

/-!
# Recognising a container that was booted

The scheduler boots a row with the labels and environment strings of `makeLabels`
and `makeEnv`; `docker.Get` reads them back and `score` compares them with the row.
The labels always survive.  `Get` splits an environment string at every `=` and
keeps the first two pieces, so a variable survives only if its value has none and
no other string starts with its name: `booted_recognised_iff`.
-/

namespace Di
namespace Scheduler

open Db Swarm

/-! ## Reading a container -/

/-- What docker's inspection returns. -/
structure Inspected extends ContainerInfo where
  env : List String := []

/-- The first two pieces of an environment string, if there are two. -/
def envPair (value : String) : Option (String × String) :=
  match value.toList.splitOn '=' with
  | key :: rest :: _ => some (String.ofList key, String.ofList rest)
  | _ => none

def readVariable (env : Finmap fun _ : String => String) (value : String) :
    Finmap fun _ : String => String :=
  match envPair value with
  | some (key, rest) => env.insert key rest
  | none => env

def readEnv (values : List String) : Finmap fun _ : String => String :=
  values.foldl readVariable ∅

def get (c : Inspected) : DockerContainer where
  toContainerInfo := c.toContainerInfo
  env := readEnv c.env

/-- The list that `create` builds has an empty string in front for each one. -/
def envList (strings : List String) : List String :=
  List.replicate strings.length "" ++ strings

/-- The container has been run for the row and is inspected now; the image may have
variables of its own. -/
structure BootedAs (dbc : Container) (c : Inspected) : Prop where
  image : c.image = dbc.image
  command : dbc.command.getD [] ≠ [] →
    c.args = dbc.command.getD [] ∨ c.path :: c.args = dbc.command.getD []
  labels : c.labels.toFinmap = makeLabels dbc
  env : ∃ strings extra, strings.Nodup ∧ strings.toFinset = makeEnv dbc ∧
    c.env.Perm (envList strings ++ extra) ∧
    ∀ value ∈ extra, ∀ pair ∈ envPair value, pair.1 ∉ dbc.env

/-! ## Labels -/

theorem parseUserLabel_userLabel (label : String) :
    isUserLabel (userLabel label) = true ∧ parseUserLabel (userLabel label) = label := by
  have hsplit : (userLabel label).toList = userLabelPrefix.toList ++ label.toList := by
    simp [userLabel, userLabelPrefix]
  have huser : isUserLabel (userLabel label) = true := by
    rw [isUserLabel, hsplit, List.isPrefixOf_iff_prefix]
    exact List.prefix_append _ _
  refine ⟨huser, ?_⟩
  rw [parseUserLabel, if_pos huser, hsplit, ← String.length_toList, List.drop_left,
    String.ofList_toList]

theorem userLabel_parseUserLabel {key : String} (huser : isUserLabel key = true) :
    userLabel (parseUserLabel key) = key := by
  rw [parseUserLabel, if_pos huser]
  rw [isUserLabel, List.isPrefixOf_iff_prefix] at huser
  rcases huser with ⟨label, hlabel⟩
  apply String.toList_injective
  rw [← hlabel, ← String.length_toList, List.drop_left]
  simp [userLabel, userLabelPrefix]

theorem isUserLabel_schedulerLabelKey : isUserLabel schedulerLabelKey = false := by
  decide

theorem makeLabels_lookup_eq_some {dbc : Container} {key value : String}
    (hlookup : (makeLabels dbc).lookup key = some value) :
    key = schedulerLabelKey ∨ ∃ label ∈ dbc.labels, key = userLabel label := by
  have hfold : ∀ (labels : List String) (start : Finmap fun _ : String => String),
      (labels.foldl (fun labels label => labels.insert (userLabel label) labelTrueValue)
        start).lookup key = some value →
      start.lookup key = some value ∨ ∃ label ∈ labels, key = userLabel label := by
    intro labels
    induction labels with
    | nil => exact fun start hstart => .inl hstart
    | cons first rest ih =>
        intro start hstart
        rcases ih _ hstart with hbefore | ⟨label, hmem, hkey⟩
        · by_cases hkey : key = userLabel first
          · exact .inr ⟨first, by simp, hkey⟩
          · rw [Finmap.lookup_insert_of_ne _ hkey] at hbefore
            exact .inl hbefore
        · exact .inr ⟨label, List.mem_cons_of_mem first hmem, hkey⟩
  apply (hfold _ _ hlookup).imp_left
  intro hsingle
  by_contra hkey
  rw [Finmap.lookup_eq_none.mpr (by simpa using hkey)] at hsingle
  cases hsingle

theorem mem_userLabels {dbc : Container} {c : Inspected}
    (hlabels : c.labels.toFinmap = makeLabels dbc) (label : String) :
    label ∈ (get c).userLabels ↔ label ∈ dbc.labels := by
  have hlookup : ∀ key value, (⟨key, value⟩ : Σ _ : String, String) ∈ c.labels.entries ↔
      (makeLabels dbc).lookup key = some value := by
    intro key value
    rw [← hlabels, Finmap.lookup_toFinmap, ← AList.mem_lookup_iff, Option.mem_def]
  constructor
  · intro hmem
    rcases List.mem_map.mp hmem with ⟨⟨key, value⟩, hentry, rfl⟩
    rcases List.mem_filter.mp hentry with ⟨hstored, hcond⟩
    rcases makeLabels_lookup_eq_some ((hlookup key value).mp hstored) with
      rfl | ⟨other, hother, rfl⟩
    · simp [isUserLabel_schedulerLabelKey] at hcond
    · rw [(parseUserLabel_userLabel other).2]
      exact hother
  · intro hmem
    have hstored := (hlookup _ _).mpr (makeLabels_lookup hmem)
    refine List.mem_map.mpr ⟨⟨userLabel label, labelTrueValue⟩, ?_,
      (parseUserLabel_userLabel label).2⟩
    exact List.mem_filter.mpr ⟨hstored, by simp [(parseUserLabel_userLabel label).1]⟩

theorem nodup_userLabels (dkc : DockerContainer) : dkc.userLabels.Nodup := by
  apply List.Nodup.map_on
  · rintro ⟨key, value⟩ hentry ⟨other, value'⟩ hother hsame
    have hcond : isUserLabel key = true ∧ value = labelTrueValue := by
      simpa using (List.mem_filter.mp hentry).2
    have hcond' : isUserLabel other = true ∧ value' = labelTrueValue := by
      simpa using (List.mem_filter.mp hother).2
    have hkeys : key = other := by
      rw [← userLabel_parseUserLabel hcond.1, ← userLabel_parseUserLabel hcond'.1]
      exact congrArg userLabel hsame
    have hvalues : value = value' := hcond.2.trans hcond'.2.symm
    rw [hkeys, hvalues]
  · exact (List.NodupKeys.nodup dkc.labels.nodupKeys).filter _

theorem editDistance_userLabels {dbc : Container} {c : Inspected}
    (hlabels : c.labels.toFinmap = makeLabels dbc) :
    Minion.editDistance dbc.labels (get c).userLabels = 0 := by
  rw [Minion.editDistance_eq_zero_iff]
  refine ⟨nodup_userLabels _, ?_⟩
  ext label
  simp [mem_userLabels hlabels]

/-! ## Variables -/

theorem envPair_append {key : String} (hkey : '=' ∉ key.toList) (value : String) :
    ∃ rest, envPair (key ++ "=" ++ value) = some (key, rest) := by
  have hsplit : (key ++ "=" ++ value).toList = key.toList ++ '=' :: value.toList := by
    simp
  unfold envPair
  rw [hsplit, List.splitOn_append_cons_self_of_not_mem hkey]
  cases hpieces : value.toList.splitOn '=' with
  | nil => exact absurd hpieces (List.splitOn_ne_nil _ _)
  | cons rest pieces => exact ⟨String.ofList rest, by simp⟩

theorem notMem_of_envPair {value : String} {pair : String × String}
    (hpair : envPair value = some pair) : '=' ∉ pair.1.toList := by
  by_cases hmem : '=' ∈ value.toList
  · rcases List.eq_append_cons_of_mem hmem with ⟨key, rest, hsplit, hkey⟩
    have hname : '=' ∉ (String.ofList key).toList := by rwa [String.toList_ofList]
    rcases envPair_append hname (String.ofList rest) with ⟨second, hfirst⟩
    have hvalue : String.ofList key ++ "=" ++ String.ofList rest = value := by
      apply String.toList_injective
      simp [hsplit]
    rw [hvalue, hpair, Option.some.injEq] at hfirst
    rw [hfirst]
    exact hname
  · simp [envPair, List.splitOn_eq_singleton hmem] at hpair

section Variables

variable {values : List String} {key : String}

theorem lookup_readVariable (env : Finmap fun _ : String => String) (value key : String) :
    (readVariable env value).lookup key =
      match envPair value with
      | some pair => if pair.1 = key then some pair.2 else env.lookup key
      | none => env.lookup key := by
  unfold readVariable
  cases hpair : envPair value with
  | none => rfl
  | some pair =>
      by_cases hkey : pair.1 = key
      · subst hkey
        simp
      · simp [hkey, Finmap.lookup_insert_of_ne _ (Ne.symm hkey)]

theorem lookup_readEnv_none (hnone : ∀ value ∈ values, ∀ pair ∈ envPair value, pair.1 ≠ key) :
    (readEnv values).lookup key = none := by
  have hfold : ∀ env : Finmap fun _ : String => String, env.lookup key = none →
      (values.foldl readVariable env).lookup key = none := by
    induction values with
    | nil => exact fun env henv => henv
    | cons value values ih =>
        intro env henv
        apply ih fun other hother => hnone other (List.mem_cons_of_mem value hother)
        rw [lookup_readVariable]
        cases hpair : envPair value with
        | none => exact henv
        | some pair =>
            have hne := hnone value (by simp) pair hpair
            simpa [hne] using henv
  exact hfold ∅ (Finmap.lookup_empty key)

theorem lookup_readEnv_some {rest : String}
    (hagree : ∀ value ∈ values, ∀ pair ∈ envPair value, pair.1 = key → pair.2 = rest)
    (hsome : ∃ value ∈ values, ∃ pair ∈ envPair value, pair.1 = key) :
    (readEnv values).lookup key = some rest := by
  have hfold : ∀ env : Finmap fun _ : String => String,
      (env.lookup key = some rest ∨ ∃ value ∈ values, ∃ pair ∈ envPair value, pair.1 = key) →
        (values.foldl readVariable env).lookup key = some rest := by
    clear hsome
    induction values with
    | nil =>
        intro env henv
        simpa using henv
    | cons value values ih =>
        intro env henv
        apply ih fun other hother => hagree other (List.mem_cons_of_mem value hother)
        rw [lookup_readVariable]
        cases hpair : envPair value with
        | none =>
            apply henv.imp_right
            rintro ⟨other, hother, pair, hname⟩
            rcases List.mem_cons.mp hother with rfl | hother
            · simp [hpair] at hname
            · exact ⟨other, hother, pair, hname⟩
        | some pair =>
            by_cases hkey : pair.1 = key
            · left
              simp [hkey, hagree value (by simp) pair hpair hkey]
            · simp only [hkey, if_false]
              apply henv.imp_right
              rintro ⟨other, hother, pair', hname⟩
              rcases List.mem_cons.mp hother with rfl | hother
              · rw [hpair, Option.mem_some_iff] at hname
                exact absurd (hname.1 ▸ hname.2) hkey
              · exact ⟨other, hother, pair', hname⟩
  exact hfold ∅ (.inr hsome)

end Variables

/-! ## Recognition -/

/-- Each variable of the row reads back from the environment strings: its value is
empty if its name contains a `=`, and otherwise every string that starts with its
name and a `=` continues with its value up to the next `=` or the end. -/
def ReadsBack (dbc : Container) : Prop :=
  ∀ key ∈ dbc.env.keys,
    if '=' ∈ key.toList then valueOf dbc.env key = ""
    else ∀ value ∈ makeEnv dbc, ∀ pair ∈ envPair value,
      pair.1 = key → pair.2 = valueOf dbc.env key

theorem mem_makeEnv_of_key {dbc : Container} {key : String} (hkey : key ∈ dbc.env.keys) :
    key ++ "=" ++ valueOf dbc.env key ∈ makeEnv dbc :=
  Finset.mem_union_right _ (Finset.mem_image_of_mem _ hkey)

theorem valueOf_readEnv {dbc : Container} {c : Inspected} (hbooted : BootedAs dbc c)
    (hreads : ReadsBack dbc) {key : String} (hkey : key ∈ dbc.env.keys) :
    valueOf (readEnv c.env) key = valueOf dbc.env key := by
  rcases hbooted.env with ⟨strings, extra, _, hstrings, hperm, hextra⟩
  have hmem : ∀ value, value ∈ c.env → value = "" ∨ value ∈ makeEnv dbc ∨ value ∈ extra := by
    intro value hvalue
    rw [hperm.mem_iff, envList, List.mem_append, List.mem_append] at hvalue
    rcases hvalue with (hempty | hstring) | hother
    · exact .inl (List.eq_of_mem_replicate hempty)
    · exact .inr (.inl (hstrings ▸ List.mem_toFinset.mpr hstring))
    · exact .inr (.inr hother)
  have hcond := hreads key hkey
  by_cases hname : '=' ∈ key.toList
  · rw [if_pos hname] at hcond
    have hnone : (readEnv c.env).lookup key = none := by
      apply lookup_readEnv_none
      rintro value _ pair hpair rfl
      exact notMem_of_envPair hpair hname
    rw [hcond, valueOf, hnone]
    rfl
  · rw [if_neg hname] at hcond
    have hsome : (readEnv c.env).lookup key = some (valueOf dbc.env key) := by
      apply lookup_readEnv_some
      · intro value hvalue pair hpair hfirst
        rcases hmem value hvalue with rfl | hstring | hother
        · cases hpair
        · exact hcond value hstring pair hpair hfirst
        · have hnot := hextra value hother pair hpair
          rw [hfirst] at hnot
          exact absurd (Finmap.mem_keys.mp hkey) hnot
      · rcases envPair_append hname (valueOf dbc.env key) with ⟨rest, hpair⟩
        refine ⟨_, ?_, _, hpair, rfl⟩
        rw [hperm.mem_iff]
        apply List.mem_append_left
        apply List.mem_append_right
        rw [← List.mem_toFinset, hstrings]
        exact mem_makeEnv_of_key hkey
    rw [valueOf, hsome]
    rfl

theorem score_of_readsBack {dbc : Container} {c : Inspected} (hbooted : BootedAs dbc c)
    (hreads : ReadsBack dbc) : score dbc (get c) = 0 := by
  have henv : ¬ ∃ key ∈ dbc.env.keys, valueOf (get c).env key ≠ valueOf dbc.env key := by
    rintro ⟨key, hkey, hne⟩
    exact hne (valueOf_readEnv hbooted hreads hkey)
  have hcommand : ¬ (dbc.command.getD [] ≠ [] ∧ dbc.command.getD [] ≠ (get c).args ∧
      dbc.command.getD [] ≠ (get c).path :: (get c).args) := by
    rintro ⟨hsome, hargs, hpath⟩
    rcases hbooted.command hsome with hsame | hsame
    · exact hargs hsame.symm
    · exact hpath hsame.symm
  have himage : ¬ (get c).image ≠ dbc.image := not_not.mpr hbooted.image
  unfold score
  simp only [if_neg henv, if_neg himage, if_neg hcommand]
  rw [editDistance_userLabels hbooted.labels]
  simp

theorem exists_bootedAs (dbc : Container) {strings : List String} (hnodup : strings.Nodup)
    (hstrings : strings.toFinset = makeEnv dbc) :
    ∃ c, BootedAs dbc c ∧ c.env = envList strings := by
  obtain ⟨labels, hlabels⟩ : ∃ labels : AList fun _ : String => String,
      labels.toFinmap = makeLabels dbc := by
    refine Finmap.induction_on (makeLabels dbc) ?_
    exact fun labels => ⟨labels, rfl⟩
  refine ⟨{ image := dbc.image, args := dbc.command.getD [], env := envList strings,
            labels := labels }, ?_, rfl⟩
  exact ⟨rfl, fun _ => .inl rfl, hlabels, strings, [], hnodup, hstrings, by simp, by simp⟩

theorem score_of_differs {dbc : Container} {c : Inspected} {key : String}
    (hkey : key ∈ dbc.env.keys) (hne : valueOf (readEnv c.env) key ≠ valueOf dbc.env key) :
    score dbc (get c) = -1 :=
  if_pos ⟨key, hkey, hne⟩

/-- Every container that was booted for the row, whatever else its image defines and
in whatever order docker lists the environment, is recognised as the row's, and with
the score of a perfect match, exactly if the variables of the row read back. -/
theorem booted_recognised_iff (dbc : Container) :
    (∀ c, BootedAs dbc c → 0 ≤ score dbc (get c) ∧
      (dbc.labels.Nodup → score dbc (get c) = 0)) ↔ ReadsBack dbc := by
  constructor
  · intro hall key hkey
    by_cases hname : '=' ∈ key.toList
    · rw [if_pos hname]
      by_contra hvalue
      rcases exists_bootedAs dbc (makeEnv dbc).nodup_toList (Finset.toList_toFinset _) with
        ⟨c, hbooted, _⟩
      have hnone : (readEnv c.env).lookup key = none := by
        apply lookup_readEnv_none
        rintro value _ pair hpair rfl
        exact notMem_of_envPair hpair hname
      have hscore : score dbc (get c) = -1 := by
        apply score_of_differs hkey
        rw [valueOf, hnone]
        exact fun heq => hvalue heq.symm
      have hnonneg := (hall c hbooted).1
      omega
    · rw [if_neg hname]
      intro value hvalue pair hpair hfirst
      by_contra hsecond
      -- the order in which the string comes last
      have hnodup : (((makeEnv dbc).erase value).toList ++ [value]).Nodup := by
        rw [List.nodup_append]
        refine ⟨Finset.nodup_toList _, by simp, ?_⟩
        simpa using fun other hother _ => hother
      have hstrings : (((makeEnv dbc).erase value).toList ++ [value]).toFinset = makeEnv dbc := by
        ext other
        by_cases hother : other = value
        · simp [hother, hvalue]
        · simp [hother]
      rcases exists_bootedAs dbc hnodup hstrings with ⟨c, hbooted, henv⟩
      have hlast : (readEnv c.env).lookup key = some pair.2 := by
        rw [henv, envList, ← List.append_assoc, readEnv, List.foldl_concat, lookup_readVariable,
          hpair]
        simp [hfirst]
      have hscore : score dbc (get c) = -1 := by
        apply score_of_differs hkey
        rw [valueOf, hlast]
        exact hsecond
      have hnonneg := (hall c hbooted).1
      omega
  · intro hreads c hbooted
    rw [score_of_readsBack hbooted hreads]
    simp

def optioned : Container :=
  { ID := 1, image := "jvm", env := Finmap.singleton "JAVA_OPTS" "-Dmode=prod" }

def inspected : Inspected where
  ID := "c1"
  image := "jvm"
  env := ["", "JAVA_OPTS=-Dmode=prod"]
  labels := AList.singleton schedulerLabelKey schedulerLabelValue

/-- The value is cut off at its `=`, so the container is not recognised. -/
theorem optioned_forgotten :
    BootedAs optioned inspected ∧ valueOf (get inspected).env "JAVA_OPTS" = "-Dmode" ∧
      score optioned (get inspected) = -1 := by
  have hbooted : BootedAs optioned inspected := by
    refine ⟨rfl, fun hsome => absurd rfl hsome, rfl, ["JAVA_OPTS=-Dmode=prod"], [], by simp, ?_,
      .rfl, by simp⟩
    decide
  exact ⟨hbooted, by decide, by decide⟩

end Scheduler
end Di
