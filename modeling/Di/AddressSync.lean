import Di.NetworkStore

/-!
# The allocation of addresses

`syncIPs` gives an address of its prefix to every entry of a directory that has none.
Each entry is one attempt, which draws an address or finds none and then writes to the
store, in vain if the store fails.  `allocate_attempts` says what the attempts leave in
the directory and in the store; what `syncIPs` guarantees is read off from it.
-/

namespace Di
namespace NetworkStore

theorem parseIP_eq_iff {text : String} {ip prefixIP : ℕ} (hip : ip ≠ 0) :
    parseIP text prefixIP = ip ↔
      GoNet.parse4 text = some ip ∧ ip / 2 ^ 16 * 2 ^ 16 = prefixIP := by
  unfold parseIP
  cases hparse : GoNet.parse4 text with
  | none => simp [Ne.symm hip]
  | some found =>
      by_cases hrange : found / 2 ^ 16 * 2 ^ 16 = prefixIP
      · simp only [hrange, ne_eq, not_true_eq_false, if_false, Option.some.injEq]
        constructor
        · intro hfound
          exact ⟨hfound, hfound ▸ hrange⟩
        · exact fun h => h.1
      · simp only [ne_eq, hrange, not_false_eq_true, if_true, Option.some.injEq]
        constructor
        · intro hzero
          exact absurd hzero.symm hip
        · intro hfound
          exact absurd (hfound.1 ▸ hfound.2) hrange

theorem parseIP_empty (prefixIP : ℕ) : parseIP "" prefixIP = 0 := by
  rw [parseIP, parse4_empty]

theorem drawn_range {conflicts : Finset ℕ} {prefixIP tries : ℕ} {draws : List ℕ}
    (haligned : prefixIP % 2 ^ 16 = 0) (hdrawn : (randomIP conflicts prefixIP tries draws).1 ≠ 0) :
    (randomIP conflicts prefixIP tries draws).1 / 2 ^ 16 * 2 ^ 16 = prefixIP := by
  rcases (randomIP_spec conflicts prefixIP tries draws).2 hdrawn with ⟨_, d, _, heq⟩
  rw [heq]
  exact candidate_range haligned d

theorem erase_of_not_mem {β : Type} {table : AList fun _ : String => β} {name : String}
    (hname : name ∉ table) : table.erase name = table := by
  apply AList.ext
  exact List.kerase_of_notMem_keys hname

theorem lookup_eq_children {dir : Directory} {k : String} (hk : k ∈ dir) :
    dir.lookup k = some (children dir k) := by
  rcases Option.isSome_iff_exists.mp (AList.lookup_isSome.mpr hk) with ⟨kids, hkids⟩
  rw [children, hkids, Option.getD_some]

theorem lookup_eq_of_children {dir other : Directory} (hmem : ∀ k, k ∈ dir ↔ k ∈ other)
    (hchildren : ∀ k, children dir k = children other k) (k : String) :
    dir.lookup k = other.lookup k := by
  by_cases hk : k ∈ dir
  · rw [lookup_eq_children hk, lookup_eq_children ((hmem k).mp hk), hchildren]
  · rw [AList.lookup_eq_none.mpr hk, AList.lookup_eq_none.mpr (mt (hmem k).mpr hk)]

/-! ## The attempts -/

/-- An entry of the directory after an attempt that drew `given`. -/
def attemptDir (fails : Bool) (given : Option ℕ) (kids : Children) : Children :=
  match given with
  | none => kids.erase "IP"
  | some ip => if fails then kids else kids.insert "IP" (GoNet.ipString ip)

/-- The same entry of the store. -/
def attemptStore (fails : Bool) (given : Option ℕ) (kids : Children) : Children :=
  if fails then kids
  else
    match given with
    | none => kids.erase "IP"
    | some ip => kids.insert "IP" (GoNet.ipString ip)

/-- What the attempts for `names` draw when they start with the conflicts `ipSet`. -/
structure Draws (prefixIP : ℕ) (fails : String → Bool) (names : List String)
    (ipSet : Finset ℕ) (given : String → Option ℕ) : Prop where
  fresh : ∀ k ∈ names, ∀ ip, given k = some ip →
    ip ∉ ipSet ∧ ip ≠ 0 ∧ ip / 2 ^ 16 * 2 ^ 16 = prefixIP
  distinct : ∀ j ∈ names, ∀ k ∈ names, j ≠ k → fails j = false → fails k = false →
    ∀ ip, given j = some ip → given k ≠ some ip

structure Attempted (fails : String → Bool) (names : List String) (given : String → Option ℕ)
    (dir store : Directory) (result : Directory × World) : Prop where
  inDir : ∀ k, children result.1 k =
    if k ∈ names then attemptDir (fails k) (given k) (children dir k) else children dir k
  inStore : ∀ k, children result.2.store k =
    if k ∈ names then attemptStore (fails k) (given k) (children store k) else children store k
  memDir : (∀ k ∈ names, k ∈ dir) → ∀ k, k ∈ result.1 ↔ k ∈ dir
  memStore : (∀ k ∈ names, k ∈ store) → ∀ k, k ∈ result.2.store ↔ k ∈ store

theorem Draws.cons {prefixIP : ℕ} {fails : String → Bool} {k : String} {rest : List String}
    {ipSet larger : Finset ℕ} {given : String → Option ℕ} (hk : k ∉ rest)
    (hdraws : Draws prefixIP fails rest larger given) (hlarger : ipSet ⊆ larger)
    {drawn : Option ℕ}
    (hdrawn : ∀ ip, drawn = some ip → ip ∉ ipSet ∧ ip ≠ 0 ∧ ip / 2 ^ 16 * 2 ^ 16 = prefixIP)
    (htaken : fails k = false → ∀ ip, drawn = some ip → ip ∈ larger) :
    Draws prefixIP fails (k :: rest) ipSet (Function.update given k drawn) := by
  have hother : ∀ name ∈ rest, Function.update given k drawn name = given name := by
    intro name hname
    have hne : name ≠ k := fun heq => hk (heq ▸ hname)
    exact Function.update_of_ne hne _ _
  constructor
  · intro name hname ip hip
    rcases List.mem_cons.mp hname with rfl | hname
    · rw [Function.update_self] at hip
      exact hdrawn ip hip
    · rw [hother name hname] at hip
      rcases hdraws.fresh name hname ip hip with ⟨hfree, hrange⟩
      exact ⟨fun hmem => hfree (hlarger hmem), hrange⟩
  · intro i hi j hj hne hfi hfj ip hip hsame
    rcases List.mem_cons.mp hi with rfl | hirest
    · rcases List.mem_cons.mp hj with rfl | hjrest
      · exact hne rfl
      · rw [Function.update_self] at hip
        rw [hother j hjrest] at hsame
        exact (hdraws.fresh j hjrest ip hsame).1 (htaken hfi ip hip)
    · rcases List.mem_cons.mp hj with rfl | hjrest
      · rw [Function.update_self] at hsame
        rw [hother i hirest] at hip
        exact (hdraws.fresh i hirest ip hip).1 (htaken hfj ip hsame)
      · rw [hother i hirest] at hip
        rw [hother j hjrest] at hsame
        exact hdraws.distinct i hirest j hjrest hne hfi hfj ip hip hsame

theorem Attempted.cons {fails : String → Bool} {k : String} {rest : List String}
    {given : String → Option ℕ} {dir nextDir store nextStore : Directory}
    {result : Directory × World} (hk : k ∉ rest)
    (hrest : Attempted fails rest given nextDir nextStore result) {drawn : Option ℕ}
    (hdir : ∀ name, children nextDir name =
      if name = k then attemptDir (fails k) drawn (children dir k) else children dir name)
    (hstore : ∀ name, children nextStore name =
      if name = k then attemptStore (fails k) drawn (children store k) else children store name)
    (hmemDir : k ∈ dir → ∀ name, name ∈ nextDir ↔ name ∈ dir)
    (hmemStore : k ∈ store → ∀ name, name ∈ nextStore ↔ name ∈ store) :
    Attempted fails (k :: rest) (Function.update given k drawn) dir store result := by
  constructor
  · intro name
    rw [hrest.inDir name, hdir name]
    by_cases hname : name = k
    · rw [hname, if_neg hk, if_pos rfl, if_pos List.mem_cons_self, Function.update_self]
    · simp [hname]
  · intro name
    rw [hrest.inStore name, hstore name]
    by_cases hname : name = k
    · rw [hname, if_neg hk, if_pos rfl, if_pos List.mem_cons_self, Function.update_self]
    · simp [hname]
  · intro hnames name
    rw [List.forall_mem_cons] at hnames
    have hsame := hmemDir hnames.1
    rw [hrest.memDir (fun other hother => (hsame other).mpr (hnames.2 other hother)), hsame]
  · intro hnames name
    rw [List.forall_mem_cons] at hnames
    have hsame := hmemStore hnames.1
    rw [hrest.memStore (fun other hother => (hsame other).mpr (hnames.2 other hother)), hsame]

theorem mem_insert_iff_of_mem {dir : Directory} {k : String} (hk : k ∈ dir) (kids : Children)
    (name : String) : name ∈ dir.insert k kids ↔ name ∈ dir := by
  rw [AList.mem_insert]
  constructor
  · intro hname
    rcases hname with rfl | hname
    · exact hk
    · exact hname
  · exact .inr

theorem children_op_deleteKey (w : World) (fails : Bool) (k key name : String) :
    children (w.op fails (deleteKey k key)).2.store name =
      if name = k then (if fails then children w.store k else (children w.store k).erase key)
      else children w.store name := by
  unfold World.op deleteKey
  by_cases hname : name = k
  · cases fails with
    | true => simp [hname]
    | false =>
        by_cases hkey : key ∈ children w.store k
        · simp [hname, hkey, children_insert]
        · simp [hname, hkey, erase_of_not_mem]
  · cases fails with
    | true => simp [hname]
    | false =>
        by_cases hkey : key ∈ children w.store k
        · simp [hname, hkey, children_insert]
        · simp [hname, hkey]

theorem mem_op_deleteKey {w : World} {k : String} (hk : k ∈ w.store) (fails : Bool)
    (key name : String) :
    name ∈ (w.op fails (deleteKey k key)).2.store ↔ name ∈ w.store := by
  rcases op_cases w fails (deleteKey k key) with hstay | ⟨_, store, hdelete, hmove⟩
  · rw [hstay]
  · rw [hmove]
    unfold deleteKey at hdelete
    split at hdelete
    · rw [← Option.some.inj hdelete]
      exact mem_insert_iff_of_mem hk _ name
    · contradiction

theorem op_setKey (w : World) (fails : Bool) (name key value : String) :
    w.op fails (setKey name key value) =
      if fails then (false, ⟨w.store, w.history ++ [w.store]⟩)
      else
        (true, ⟨w.store.insert name ((children w.store name).insert key value),
          w.history ++ [w.store.insert name ((children w.store name).insert key value)]⟩) := by
  cases fails <;> rfl

section Steps

variable {fails : String → Bool} {k : String} {rest : List String} {given : String → Option ℕ}
  {dir : Directory} {w : World} {result : Directory × World}

theorem Attempted.exhausted (hk : k ∉ rest)
    (hrest : Attempted fails rest given (dir.insert k ((children dir k).erase "IP"))
      (w.op (fails k) (deleteKey k "IP")).2.store result) :
    Attempted fails (k :: rest) (Function.update given k none) dir w.store result := by
  apply hrest.cons hk
  · intro name
    rw [children_insert]
    rfl
  · intro name
    rw [children_op_deleteKey]
    rfl
  · intro hmem name
    exact mem_insert_iff_of_mem hmem _ name
  · intro hmem name
    exact mem_op_deleteKey hmem _ _ name

theorem Attempted.failed (hk : k ∉ rest) (hfails : fails k = true) (ip : ℕ)
    (hrest : Attempted fails rest given dir w.store result) :
    Attempted fails (k :: rest) (Function.update given k (some ip)) dir w.store result := by
  apply hrest.cons hk
  · intro name
    by_cases hname : name = k
    · simp [hname, attemptDir, hfails]
    · rw [if_neg hname]
  · intro name
    by_cases hname : name = k
    · simp [hname, attemptStore, hfails]
    · rw [if_neg hname]
  · exact fun _ _ => .rfl
  · exact fun _ _ => .rfl

theorem Attempted.written (hk : k ∉ rest) (hworks : fails k = false) {ip : ℕ}
    (hrest : Attempted fails rest given
      (dir.insert k ((children dir k).insert "IP" (GoNet.ipString ip)))
      (w.store.insert k ((children w.store k).insert "IP" (GoNet.ipString ip))) result) :
    Attempted fails (k :: rest) (Function.update given k (some ip)) dir w.store result := by
  apply hrest.cons hk
  · intro name
    rw [children_insert, hworks]
    rfl
  · intro name
    rw [children_insert, hworks]
    rfl
  · intro hmem name
    exact mem_insert_iff_of_mem hmem _ name
  · intro hmem name
    exact mem_insert_iff_of_mem hmem _ name

end Steps

theorem allocate_attempts {prefixIP : ℕ} (haligned : prefixIP % 2 ^ 16 = 0) (faults : Faults)
    {names : List String} (hnames : names.Nodup) (ipSet : Finset ℕ) (draws : List ℕ)
    (dir : Directory) (w : World) :
    ∃ given, Draws prefixIP faults.ip names ipSet given ∧
      Attempted faults.ip names given dir w.store
        (allocate faults prefixIP names ipSet draws dir w) := by
  induction names generalizing ipSet draws dir w with
  | nil =>
      refine ⟨fun _ => none, ⟨by simp, by simp⟩, ?_⟩
      rw [allocate_nil]
      exact ⟨by simp, by simp, fun _ _ => .rfl, fun _ _ => .rfl⟩
  | cons k rest ih =>
      rcases List.nodup_cons.mp hnames with ⟨hk, hrest⟩
      rw [allocate_cons]
      set drawn := randomIP ipSet prefixIP 256 draws with hdrawn
      by_cases hzero : drawn.1 = 0
      · simp only [if_pos hzero]
        rcases ih hrest ipSet drawn.2 _ _ with ⟨given, hdraws, hattempted⟩
        exact ⟨Function.update given k none,
          hdraws.cons hk Finset.Subset.rfl (by simp) (by simp), hattempted.exhausted hk⟩
      · simp only [if_neg hzero]
        rw [op_setKey]
        have hgiven : ∀ ip, some drawn.1 = some ip →
            ip ∉ ipSet ∧ ip ≠ 0 ∧ ip / 2 ^ 16 * 2 ^ 16 = prefixIP := by
          intro ip hip
          rw [← Option.some.inj hip]
          exact ⟨((randomIP_spec ipSet prefixIP 256 draws).2 hzero).1, hzero,
            drawn_range haligned hzero⟩
        cases hfails : faults.ip k with
        | true =>
            rcases ih hrest ipSet drawn.2 dir ⟨w.store, w.history ++ [w.store]⟩ with
              ⟨given, hdraws, hattempted⟩
            exact ⟨Function.update given k (some drawn.1),
              hdraws.cons hk Finset.Subset.rfl hgiven (by simp [hfails]),
              hattempted.failed hk hfails drawn.1⟩
        | false =>
            set kids := fun table : Directory =>
              (children table k).insert "IP" (GoNet.ipString drawn.1)
            rcases ih hrest (insert drawn.1 ipSet) drawn.2 (dir.insert k (kids dir))
              ⟨w.store.insert k (kids w.store), w.history ++ [w.store.insert k (kids w.store)]⟩ with
              ⟨given, hdraws, hattempted⟩
            refine ⟨Function.update given k (some drawn.1),
              hdraws.cons hk (Finset.subset_insert drawn.1 ipSet) hgiven ?_,
              hattempted.written hk hfails⟩
            intro _ ip hip
            rw [← Option.some.inj hip]
            exact Finset.mem_insert_self _ _

theorem syncIPs_attempts {prefixIP : ℕ} (haligned : prefixIP % 2 ^ 16 = 0) (round : Round)
    (dir : Directory) (w : World) :
    ∃ names given, (∀ k, k ∈ names ↔ k ∈ dir ∧ parseIP (ipOf dir k) prefixIP = 0) ∧
      Draws prefixIP round.faults.ip names
        (insert (parseIP gatewayIP prefixIP) (assigned dir prefixIP)) given ∧
      Attempted round.faults.ip names given dir w.store (syncIPs round prefixIP dir w) := by
  set names := (round.ipOrder.visit dir.keys).filter fun k =>
    parseIP (ipOf dir k) prefixIP = 0 with hnames
  have hmem : ∀ k, k ∈ names ↔ k ∈ dir ∧ parseIP (ipOf dir k) prefixIP = 0 := by
    intro k
    rw [hnames, List.mem_filter, IterOrder.mem_visit, decide_eq_true_eq]
    rfl
  have hnodup : names.Nodup := by
    apply List.Nodup.filter
    exact (round.ipOrder.perm _).nodup_iff.mpr dir.keys_nodup
  rcases allocate_attempts haligned round.faults hnodup
    (insert (parseIP gatewayIP prefixIP) (assigned dir prefixIP)) round.draws dir w with
    ⟨given, hdraws, hattempted⟩
  exact ⟨names, given, hmem, hdraws, hattempted⟩

/-! ## The addresses of the directory -/

/-- The addresses of the prefix belong to one entry each, and not to the gateway. -/
structure Unshared (prefixIP : ℕ) (dir : Directory) : Prop where
  distinct : ∀ a b, a ≠ b → parseIP (ipOf dir a) prefixIP ≠ 0 →
    parseIP (ipOf dir a) prefixIP ≠ parseIP (ipOf dir b) prefixIP
  noGateway : ∀ k, parseIP (ipOf dir k) prefixIP ≠ gateway

structure Addressed (prefixIP : ℕ) (before after : Directory) : Prop where
  kept : ∀ k, parseIP (ipOf before k) prefixIP ≠ 0 → ipOf after k = ipOf before k
  written : ∀ k text, (children after k).lookup "IP" = some text →
    (children before k).lookup "IP" ≠ some text →
      ∃ ip, GoNet.parse4 text = some ip ∧ ip / 2 ^ 16 * 2 ^ 16 = prefixIP ∧ ip ≠ gateway ∧
        ∀ other ≠ k, parseIP (ipOf after other) prefixIP ≠ ip
  unshared : Unshared prefixIP after

/-- Every entry has an address of the prefix or none at all. -/
def Settled (prefixIP : ℕ) (dir : Directory) : Prop :=
  ∀ k ∈ dir, parseIP (ipOf dir k) prefixIP ≠ 0 ∨ "IP" ∉ children dir k

theorem mem_of_parseIP {prefixIP : ℕ} {dir : Directory} {k : String}
    (hassigned : parseIP (ipOf dir k) prefixIP ≠ 0) : k ∈ dir := by
  by_contra hk
  rw [ipOf_of_not_mem hk, parseIP_empty] at hassigned
  contradiction

theorem mem_assigned {prefixIP : ℕ} {dir : Directory} {k : String}
    (hassigned : parseIP (ipOf dir k) prefixIP ≠ 0) :
    parseIP (ipOf dir k) prefixIP ∈ assigned dir prefixIP := by
  rw [assigned, Finset.mem_erase, List.mem_toFinset]
  exact ⟨hassigned, List.mem_map.mpr ⟨k, mem_of_parseIP hassigned, rfl⟩⟩

theorem unshared_iff {prefixIP : ℕ} {dir : Directory} :
    Unshared prefixIP dir ↔
      (∀ a ∈ dir.keys, ∀ b ∈ dir.keys, a ≠ b → parseIP (ipOf dir a) prefixIP ≠ 0 →
        parseIP (ipOf dir a) prefixIP ≠ parseIP (ipOf dir b) prefixIP) ∧
      ∀ k ∈ dir.keys, parseIP (ipOf dir k) prefixIP ≠ gateway := by
  constructor
  · intro hunshared
    exact ⟨fun a _ b _ => hunshared.distinct a b, fun k _ => hunshared.noGateway k⟩
  · intro hkeys
    constructor
    · intro a b hne ha hsame
      exact hkeys.1 a (mem_of_parseIP ha) b (mem_of_parseIP (hsame ▸ ha)) hne ha hsame
    · intro k hgate
      have hk : parseIP (ipOf dir k) prefixIP ≠ 0 := by
        rw [hgate]
        decide
      exact hkeys.2 k (mem_of_parseIP hk) hgate

instance (prefixIP : ℕ) (dir : Directory) : Decidable (Unshared prefixIP dir) :=
  decidable_of_iff _ unshared_iff.symm

theorem ne_gateway_of_free {prefixIP ip : ℕ} (hrange : ip / 2 ^ 16 * 2 ^ 16 = prefixIP)
    (hfree : parseIP gatewayIP prefixIP ≠ ip) : ip ≠ gateway := by
  intro hip
  apply hfree
  have hpositive : ip ≠ 0 := by
    rw [hip]
    decide
  rw [parseIP_eq_iff hpositive]
  refine ⟨?_, hrange⟩
  rw [hip]
  decide

theorem ipOf_eq_of_lookup {dir : Directory} {k text : String}
    (hlookup : (children dir k).lookup "IP" = some text) : ipOf dir k = text := by
  rw [ipOf, hlookup, Option.getD_some]

theorem parseIP_of_lookup {prefixIP ip : ℕ} (hbound : prefixIP < 2 ^ 32) (hpositive : ip ≠ 0)
    (hrange : ip / 2 ^ 16 * 2 ^ 16 = prefixIP) {dir : Directory} {k : String}
    (hlookup : (children dir k).lookup "IP" = some (GoNet.ipString ip)) :
    parseIP (ipOf dir k) prefixIP = ip := by
  rw [ipOf_eq_of_lookup hlookup, parseIP_eq_iff hpositive]
  exact ⟨GoNet.parse4_ipString (by omega), hrange⟩

theorem ipOf_of_not_mem_children {dir : Directory} {k : String}
    (hkey : "IP" ∉ children dir k) : ipOf dir k = "" := by
  rw [ipOf, AList.lookup_eq_none.mpr hkey, Option.getD_none]

section Sync

variable {prefixIP : ℕ} {fails : String → Bool} {names : List String} {ipSet : Finset ℕ}
  {given : String → Option ℕ} {dir store : Directory} {result : Directory × World}

theorem Attempted.cases (hattempted : Attempted fails names given dir store result) {k : String}
    (hk : k ∈ names) :
    "IP" ∉ children result.1 k ∨
      (fails k = true ∧ children result.1 k = children dir k) ∨
      ∃ ip, fails k = false ∧ given k = some ip ∧
        (children result.1 k).lookup "IP" = some (GoNet.ipString ip) := by
  have hchildren := hattempted.inDir k
  rw [if_pos hk] at hchildren
  cases hgiven : given k with
  | none =>
      left
      rw [hchildren, hgiven]
      simp [attemptDir]
  | some ip =>
      right
      cases hfails : fails k with
      | true =>
          left
          rw [hchildren, hgiven, hfails]
          exact ⟨rfl, rfl⟩
      | false =>
          right
          refine ⟨ip, rfl, rfl, ?_⟩
          rw [hchildren, hgiven, hfails]
          simp [attemptDir]

theorem Attempted.ipOf_other (hattempted : Attempted fails names given dir store result)
    {k : String} (hk : k ∉ names) : ipOf result.1 k = ipOf dir k := by
  rw [ipOf, hattempted.inDir k, if_neg hk]
  rfl

/-- An address of the prefix was there before or was drawn. -/
theorem Attempted.address (hattempted : Attempted fails names given dir store result)
    (hdraws : Draws prefixIP fails names ipSet given) (hbound : prefixIP < 2 ^ 32)
    (hunassigned : ∀ k ∈ names, parseIP (ipOf dir k) prefixIP = 0) {k : String}
    (haddress : parseIP (ipOf result.1 k) prefixIP ≠ 0) :
    (k ∉ names ∧ ipOf result.1 k = ipOf dir k) ∨
      (k ∈ names ∧ fails k = false ∧
        given k = some (parseIP (ipOf result.1 k) prefixIP)) := by
  by_cases hk : k ∈ names
  · right
    rcases hattempted.cases hk with hnone | ⟨_, hsame⟩ | ⟨ip, hworks, hgiven, hlookup⟩
    · rw [ipOf_of_not_mem_children hnone, parseIP_empty] at haddress
      contradiction
    · rw [ipOf, hsame, ← ipOf, hunassigned k hk] at haddress
      contradiction
    · rcases hdraws.fresh k hk ip hgiven with ⟨_, hpositive, hrange⟩
      rw [parseIP_of_lookup hbound hpositive hrange hlookup]
      exact ⟨hk, hworks, hgiven⟩
  · exact .inl ⟨hk, hattempted.ipOf_other hk⟩

theorem Draws.ne_gateway (hdraws : Draws prefixIP fails names
      (insert (parseIP gatewayIP prefixIP) (assigned dir prefixIP)) given)
    {k : String} (hk : k ∈ names) {ip : ℕ} (hgiven : given k = some ip) : ip ≠ gateway := by
  rcases hdraws.fresh k hk ip hgiven with ⟨hfree, _, hrange⟩
  apply ne_gateway_of_free hrange
  intro hsame
  exact hfree (hsame ▸ Finset.mem_insert_self _ _)

theorem Attempted.distinct (hattempted : Attempted fails names given dir store result)
    (hdraws : Draws prefixIP fails names
      (insert (parseIP gatewayIP prefixIP) (assigned dir prefixIP)) given)
    (hbound : prefixIP < 2 ^ 32)
    (hunassigned : ∀ k ∈ names, parseIP (ipOf dir k) prefixIP = 0)
    (hunshared : Unshared prefixIP dir) (a b : String) (hne : a ≠ b)
    (ha : parseIP (ipOf result.1 a) prefixIP ≠ 0) :
    parseIP (ipOf result.1 a) prefixIP ≠ parseIP (ipOf result.1 b) prefixIP := by
  intro hsame
  have hb : parseIP (ipOf result.1 b) prefixIP ≠ 0 := hsame ▸ ha
  -- a drawn address is not one that an entry had before
  have hdiffers : ∀ c ∈ names, ∀ other ip, given c = some ip →
      parseIP (ipOf dir other) prefixIP ≠ ip := by
    intro c hc other ip hgiven hold
    rcases hdraws.fresh c hc ip hgiven with ⟨hfree, hpositive, _⟩
    rw [← hold] at hfree hpositive
    exact hfree (Finset.mem_insert_of_mem (mem_assigned hpositive))
  rcases hattempted.address hdraws hbound hunassigned ha with ⟨_, hipa⟩ | ⟨hma, hfa, hga⟩
  · rcases hattempted.address hdraws hbound hunassigned hb with ⟨_, hipb⟩ | ⟨hmb, _, hgb⟩
    · rw [hipa] at ha hsame
      rw [hipb] at hsame
      exact hunshared.distinct a b hne ha hsame
    · rw [← hsame, hipa] at hgb
      exact hdiffers b hmb a _ hgb rfl
  · rcases hattempted.address hdraws hbound hunassigned hb with ⟨_, hipb⟩ | ⟨hmb, hfb, hgb⟩
    · rw [hsame, hipb] at hga
      exact hdiffers a hma b _ hga rfl
    · rw [← hsame] at hgb
      exact hdraws.distinct a hma b hmb hne hfa hfb _ hga hgb

theorem Attempted.addressed (hattempted : Attempted fails names given dir store result)
    (hdraws : Draws prefixIP fails names
      (insert (parseIP gatewayIP prefixIP) (assigned dir prefixIP)) given)
    (hbound : prefixIP < 2 ^ 32)
    (hunassigned : ∀ k ∈ names, parseIP (ipOf dir k) prefixIP = 0)
    (hunshared : Unshared prefixIP dir) : Addressed prefixIP dir result.1 := by
  have hdistinct := hattempted.distinct hdraws hbound hunassigned hunshared
  refine ⟨?_, ?_, hdistinct, ?_⟩
  · intro k hassigned
    exact hattempted.ipOf_other fun hk => hassigned (hunassigned k hk)
  · intro k text hafter hbefore
    have hk : k ∈ names := by
      by_contra hk
      rw [hattempted.inDir k, if_neg hk] at hafter
      exact hbefore hafter
    rcases hattempted.cases hk with hnone | ⟨_, hsame⟩ | ⟨ip, _, hgiven, hlookup⟩
    · rw [AList.lookup_eq_none.mpr hnone] at hafter
      contradiction
    · rw [hsame] at hafter
      exact absurd hafter hbefore
    · rcases hdraws.fresh k hk ip hgiven with ⟨_, hpositive, hrange⟩
      have hparse : GoNet.parse4 text = some ip := by
        rw [hlookup, Option.some.injEq] at hafter
        rw [← hafter]
        exact GoNet.parse4_ipString (by omega)
      refine ⟨ip, hparse, hrange, hdraws.ne_gateway hk hgiven, ?_⟩
      have hip := parseIP_of_lookup hbound hpositive hrange hlookup
      intro other hother hsame
      exact hdistinct k other hother.symm (hip ▸ hpositive) (hip.trans hsame.symm)
  · intro k hgate
    have hpositive : parseIP (ipOf result.1 k) prefixIP ≠ 0 := by
      rw [hgate]
      decide
    rcases hattempted.address hdraws hbound hunassigned hpositive with
      ⟨_, hip⟩ | ⟨hk, _, hgiven⟩
    · rw [hip] at hgate
      exact hunshared.noGateway k hgate
    · exact hdraws.ne_gateway hk hgiven hgate

/-- If the calls that fail are on entries without an address, the directory is as the
store again. -/
theorem Attempted.settled (hattempted : Attempted fails names given dir store result)
    (hdraws : Draws prefixIP fails names ipSet given) (hbound : prefixIP < 2 ^ 32)
    (hnames : ∀ k, k ∈ names ↔ k ∈ dir ∧ parseIP (ipOf dir k) prefixIP = 0)
    (hcopy : ∀ k, dir.lookup k = store.lookup k)
    (hfails : ∀ k ∈ names, fails k = true → "IP" ∉ children dir k) :
    Settled prefixIP result.1 ∧ ∀ k, result.1.lookup k = result.2.store.lookup k := by
  have hmem : ∀ k, k ∈ dir ↔ k ∈ store := by
    intro k
    rw [← AList.lookup_isSome, hcopy k, AList.lookup_isSome]
  have hchildren : ∀ k, children dir k = children store k := by
    intro k
    rw [children, hcopy k]
    rfl
  have hin : ∀ k ∈ names, k ∈ dir := fun k hk => ((hnames k).mp hk).1
  constructor
  · intro k hk
    rw [hattempted.memDir hin] at hk
    by_cases hname : k ∈ names
    · rcases hattempted.cases hname with hnone | ⟨hfailed, hsame⟩ | ⟨ip, _, hgiven, hlookup⟩
      · exact .inr hnone
      · rw [hsame]
        exact .inr (hfails k hname hfailed)
      · left
        rcases hdraws.fresh k hname ip hgiven with ⟨_, hpositive, hrange⟩
        rw [parseIP_of_lookup hbound hpositive hrange hlookup]
        exact hpositive
    · left
      rw [hattempted.ipOf_other hname]
      exact fun hzero => hname ((hnames k).mpr ⟨hk, hzero⟩)
  · apply lookup_eq_of_children
    · intro k
      rw [hattempted.memDir hin,
        hattempted.memStore fun name hname => (hmem name).mp (hin name hname), hmem]
    · intro k
      rw [hattempted.inDir k, hattempted.inStore k, ← hchildren k]
      by_cases hname : k ∈ names
      · rw [if_pos hname, if_pos hname]
        cases hfailed : fails k with
        | false =>
            cases given k with
            | none => rfl
            | some ip => rfl
        | true =>
            cases given k with
            | none => exact erase_of_not_mem (hfails k hname hfailed)
            | some ip => rfl
      · rw [if_neg hname, if_neg hname]

end Sync

/-- Addresses that were in the prefix stay; a written address is in the prefix, is not
that of the gateway and belongs to one entry only.  If a call fails at most for an entry
without an address, every entry has an address of the prefix or none afterwards, and the
directory still shows the store. -/
theorem syncIPs_addresses {prefixIP : ℕ} (haligned : prefixIP % 2 ^ 16 = 0)
    (hbound : prefixIP < 2 ^ 32) {dir : Directory} (hunshared : Unshared prefixIP dir)
    {w : World} (hcopy : ∀ k, dir.lookup k = w.store.lookup k) (round : Round) :
    Addressed prefixIP dir (syncIPs round prefixIP dir w).1 ∧
      ((∀ k ∈ dir, parseIP (ipOf dir k) prefixIP = 0 → round.faults.ip k = true →
        "IP" ∉ children dir k) →
        Settled prefixIP (syncIPs round prefixIP dir w).1 ∧
          ∀ k, (syncIPs round prefixIP dir w).1.lookup k =
            (syncIPs round prefixIP dir w).2.store.lookup k) := by
  rcases syncIPs_attempts haligned round dir w with ⟨names, given, hmem, hdraws, hattempted⟩
  refine ⟨hattempted.addressed hdraws hbound (fun k hk => ((hmem k).mp hk).2) hunshared, ?_⟩
  intro hfails
  apply hattempted.settled hdraws hbound hmem hcopy
  intro k hk
  exact hfails k ((hmem k).mp hk).1 ((hmem k).mp hk).2

def oneAddress : Directory :=
  AList.insert "b" ∅ (AList.insert "a" (AList.insert "IP" "10.1.0.5" ∅) ∅)

def secondDraw : Round where
  containers := []
  faults := Faults.none
  draws := [5, 7]
  keyOrder := .asStored _
  ipOrder := .asStored _
  labelOrder := .asStored _

theorem syncIPs_addresses_oneAddress :
    let after := (syncIPs secondDraw (10 * 2 ^ 24 + 2 ^ 16) oneAddress ⟨oneAddress, []⟩).1
    Unshared (10 * 2 ^ 24 + 2 ^ 16) oneAddress ∧ ipOf after "b" = "10.1.0.7" ∧
      Addressed (10 * 2 ^ 24 + 2 ^ 16) oneAddress after ∧
      Settled (10 * 2 ^ 24 + 2 ^ 16) after := by
  have hunshared : Unshared (10 * 2 ^ 24 + 2 ^ 16) oneAddress := by decide
  rcases syncIPs_addresses (by decide) (by decide) hunshared
    (w := ⟨oneAddress, []⟩) (fun _ => rfl) secondDraw with ⟨haddressed, hsettled⟩
  refine ⟨hunshared, by decide, haddressed, (hsettled ?_).1⟩
  intro _ _ _ hfails
  contradiction

end NetworkStore
end Di
