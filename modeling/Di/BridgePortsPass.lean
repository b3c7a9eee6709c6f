import Di.BridgePortStore

/-!
# A pass of a worker over the ports of its bridges

A pass deletes the ports that are not to be there, creates those that are missing, and adds to an
interface what it lacks.  It takes nothing from an interface, so the bridges have the ports of
the containers afterwards exactly if the ports that were there before do not contradict them.
-/

namespace Di
namespace BridgePorts

open Db Ovsdb
open Procedure (Returns returns_of_and)

/-! ## What becomes of one port -/

/-- Nothing in the interface contradicts the target. -/
structure Attrs.Yields (attrs : Attrs) (target : OvsPort) : Prop where
  patch : attrs.type = ifaceTypePatch → target.patch = true
  peer : ∀ value, attrs.options.get "peer" = some value → value = target.peer
  attachedMAC : ∀ value, attrs.externalIds.get "attached-mac" = some value →
    value = target.attachedMAC
  ifaceID : ∀ value, attrs.externalIds.get "iface-id" = some value → value = target.ifaceID

/-- An entry is written if it reads otherwise, and kept if it is there. -/
def added (old : Option String) (current target : String) : Option String :=
  if current ≠ target ∧ target ≠ "" then some (old.getD target) else old

theorem getD_added_iff {old : Option String} {target : String} :
    (added old (old.getD "") target).getD "" = target ↔
      ∀ value, old = some value → value = target := by
  unfold added
  cases old with
  | none =>
      by_cases htarget : target = ""
      · simp [htarget]
      · simp [htarget, eq_comm]
  | some value => split_ifs <;> simp

section Become

variable (current target : OvsPort) (attrs : Attrs)

theorem become_type :
    (attrs.become current target).type =
      if current.patch ≠ target.patch ∧ target.patch then ifaceTypePatch else attrs.type := by
  unfold Attrs.become
  split_ifs <;> rfl

theorem become_peer :
    (attrs.become current target).options.get "peer" =
      added (attrs.options.get "peer") current.peer target.peer := by
  unfold Attrs.become added
  split_ifs <;> first | rfl | exact Entries.get_insert ..

theorem become_attachedMAC :
    (attrs.become current target).externalIds.get "attached-mac" =
      added (attrs.externalIds.get "attached-mac") current.attachedMAC target.attachedMAC := by
  have hother : ∀ entries : Entries,
      (entries.insert "iface-id" target.ifaceID).get "attached-mac" =
        entries.get "attached-mac" := Entries.get_insert_of_ne (by decide) _
  unfold Attrs.become added
  split_ifs <;>
    simp [Attrs.addExternalId, Attrs.addOption, Attrs.setType, hother, Entries.get_insert]

theorem become_ifaceID :
    (attrs.become current target).externalIds.get "iface-id" =
      added (attrs.externalIds.get "iface-id") current.ifaceID target.ifaceID := by
  have hother : ∀ entries : Entries,
      (entries.insert "attached-mac" target.attachedMAC).get "iface-id" =
        entries.get "iface-id" := Entries.get_insert_of_ne (by decide) _
  unfold Attrs.become added
  split_ifs <;>
    simp [Attrs.addExternalId, Attrs.addOption, Attrs.setType, hother, Entries.get_insert]

end Become

/-- A port reads like its target exactly if nothing contradicted the target. -/
theorem config_become_iff {attrs : Attrs} {target : OvsPort} (hname : attrs.name = target.name)
    (hbridge : attrs.bridge = target.bridge) :
    (attrs.become attrs.config target).config = target ↔ attrs.Yields target := by
  have hkeeps := become_keeps attrs.config target
  have hpatch : (decide ((attrs.become attrs.config target).type = ifaceTypePatch) =
      target.patch) ↔ (attrs.type = ifaceTypePatch → target.patch = true) := by
    have hcurrent : attrs.config.patch = decide (attrs.type = ifaceTypePatch) := rfl
    rw [become_type, hcurrent]
    by_cases htype : attrs.type = ifaceTypePatch <;> cases htarget : target.patch <;> simp [htype]
  have hconfig : (attrs.become attrs.config target).config =
      ⟨target.name, target.bridge, (attrs.become attrs.config target).type = ifaceTypePatch,
        (added (attrs.options.get "peer") attrs.config.peer target.peer).getD "",
        (added (attrs.externalIds.get "attached-mac") attrs.config.attachedMAC
          target.attachedMAC).getD "",
        (added (attrs.externalIds.get "iface-id") attrs.config.ifaceID
          target.ifaceID).getD ""⟩ := by
    rw [← become_peer, ← become_attachedMAC, ← become_ifaceID, ← hname, ← hbridge,
      ← hkeeps.name attrs, ← hkeeps.bridge attrs]
    rfl
  have hfields : (attrs.become attrs.config target).config = target ↔
      decide ((attrs.become attrs.config target).type = ifaceTypePatch) = target.patch ∧
        (added (attrs.options.get "peer") attrs.config.peer target.peer).getD "" = target.peer ∧
        (added (attrs.externalIds.get "attached-mac") attrs.config.attachedMAC
          target.attachedMAC).getD "" = target.attachedMAC ∧
        (added (attrs.externalIds.get "iface-id") attrs.config.ifaceID target.ifaceID).getD "" =
          target.ifaceID := by
    rw [hconfig]
    cases target
    simp only [OvsPort.mk.injEq, true_and]
  rw [hfields, hpatch]
  constructor
  · rintro ⟨htype, hpeer, hmac, hid⟩
    exact ⟨htype, getD_added_iff.mp hpeer, getD_added_iff.mp hmac, getD_added_iff.mp hid⟩
  · rintro ⟨htype, hpeer, hmac, hid⟩
    exact ⟨htype, getD_added_iff.mpr hpeer, getD_added_iff.mpr hmac, getD_added_iff.mpr hid⟩

/-! ## The calls -/

/-- Rows of the two bridges that have these ports. -/
structure Rows.Stand (rows : Rows) (attrs : List Attrs) : Prop where
  attrs : rows.ports.map Port.toAttrs = attrs
  bridges : ∀ bridge ∈ ownBridges, bridge ∈ rows.bridges

/-- The database has the two bridges and these ports. -/
def Represents {σ : Type} (holds : Rows → ℕ → σ → Prop) (attrs : List Attrs) (room : ℕ) (s : σ) :
    Prop :=
  ∃ rows : Rows, rows.Stand attrs ∧ holds rows room s

theorem Rows.Stand.names {rows : Rows} {attrs : List Attrs} (hstand : rows.Stand attrs) :
    (rows.ports.map fun port => port.name) = attrs.map Attrs.name := by
  rw [← hstand.attrs, List.map_map]
  rfl

section Calls

variable {σ : Type} {server : Server Table Column σ} {holds : Rows → ℕ → σ → Prop}

theorem Represents.names_nodup {attrs : List Attrs} {room : ℕ} {s : σ}
    (hs : Represents holds attrs room s) : (attrs.map Attrs.name).Nodup := by
  obtain ⟨rows, hstand, -⟩ := hs
  exact hstand.names ▸ rows.names_nodup

variable (hserves : Serves server holds) (attrs : List Attrs) (room : ℕ)
include hserves

theorem Serves.fewer_le {attrs : List Attrs} {more room : ℕ} (hle : room ≤ more) {s : σ}
    (hs : Represents holds attrs more s) : Represents holds attrs room s := by
  obtain ⟨rows, hstand, hs⟩ := hs
  refine ⟨rows, hstand, ?_⟩
  induction hle with
  | refl => exact hs
  | step _ ih => exact ih (hserves.fewer hs)

theorem Serves.dials :
    Returns (Represents holds attrs room) server.dial fun _ => Represents holds attrs room := by
  rintro s ⟨rows, hstand, hs⟩
  exact ((hserves.connect rows room).imp fun _ s hs => ⟨rows, hstand, hs⟩) s hs

theorem Serves.lists :
    Returns (Represents holds attrs room) (BridgePorts.generateCurrentPorts server) fun configs s =>
      configs.Perm ((attrs.filter fun port => port.bridge ∈ ownBridges).map Attrs.config) ∧
        Represents holds attrs room s := by
  rintro s ⟨rows, hstand, hs⟩
  refine ((hserves.generateCurrentPorts rows room hstand.bridges).imp ?_) s hs
  rintro configs s ⟨hperm, hs⟩
  refine ⟨?_, rows, hstand, hs⟩
  rw [← hstand.attrs, List.filter_map, List.map_map]
  exact hperm

theorem Serves.delPort {config : OvsPort}
    (hconfig : ∀ port ∈ attrs, port.name = config.name → port.bridge = config.bridge) :
    Returns (Represents holds attrs room) (BridgePorts.delPort server config) fun _ =>
      Represents holds (attrs.filter fun port => port.name ≠ config.name) room := by
  rintro s ⟨rows, hstand, hs⟩
  have hnames := hstand.names
  by_cases hname : config.name ∈ attrs.map Attrs.name
  · rw [← hnames, List.mem_map] at hname
    obtain ⟨port, hport, hname⟩ := hname
    have hbridge := hconfig port.toAttrs (hstand.attrs ▸ List.mem_map_of_mem hport) hname
    have hdelete := (hserves.deleteOFPort rows room hport).mapError
      (.under "error deleting openflow port: ")
    rw [hname, hbridge] at hdelete
    refine (hdelete.imp fun _ s hs => ?_) s hs
    refine ⟨rows.deletePort port, ⟨?_, hstand.bridges⟩, hs⟩
    rw [← hstand.attrs, List.filter_map, ← hname]
    refine congrArg _ (List.filter_congr fun other hother => ?_)
    simp [rows.name_eq_iff hport hother]
  · have hfilter : (attrs.filter fun port => port.name ≠ config.name) = attrs := by
      rw [List.filter_eq_self]
      intro port hport
      simpa using fun heq => hname (List.mem_map.mpr ⟨port, hport, heq⟩)
    rw [hfilter]
    have hdelete := (hserves.deleteOFPort_none rows room config.bridge
      (hnames ▸ hname)).mapError (.under "error deleting openflow port: ")
    exact (hdelete.imp fun _ s hs => ⟨rows, hstand, hs⟩) s hs

omit hserves in
theorem Changes.represents {name : String} {call : Call σ Unit} {f : Attrs → Attrs}
    (hcall : Changes holds name call f) (hname : name ∈ attrs.map Attrs.name) :
    Returns (Represents holds attrs room) call fun _ =>
      Represents holds (attrs.map (Attrs.at name f)) room := by
  rintro s ⟨rows, hstand, hs⟩
  refine ((hcall.returns rows room (hstand.names ▸ hname)).imp fun _ s hs => ?_) s hs
  refine ⟨rows.change name hcall.keeps, ⟨?_, hstand.bridges⟩, hs⟩
  rw [← hstand.attrs, Rows.change_ports, List.map_map, List.map_map]
  rfl

def created (config : OvsPort) : Attrs :=
  (Attrs.plain config.bridge config.name).become
    { name := config.name, bridge := config.bridge } config

omit hserves in
theorem map_at_of_not_mem {name : String} (hname : name ∉ attrs.map Attrs.name)
    (f : Attrs → Attrs) : attrs.map (Attrs.at name f) = attrs := by
  refine (List.map_congr_left fun port hport => ?_).trans (List.map_id attrs)
  exact if_neg fun heq => hname (List.mem_map.mpr ⟨port, hport, heq⟩)

theorem Serves.addPort {config : OvsPort} (hbridge : config.bridge ∈ ownBridges)
    (hname : config.name ∉ attrs.map Attrs.name) :
    Returns (Represents holds attrs (room + 2)) (BridgePorts.addPort server config) fun _ =>
      Represents holds (attrs ++ [created config]) room := by
  have hcreate : Returns (Represents holds attrs (room + 2))
      (Procedure.mapError (.under "error creating openflow port: ")
        (BridgePorts.createOFPort server config.bridge config.name)) fun _ =>
        Represents holds (attrs ++ [.plain config.bridge config.name]) room := by
    rintro s ⟨rows, hstand, hs⟩
    have hcall := (hserves.createOFPort rows room (hstand.bridges _ hbridge)
      (hstand.names ▸ hname)).mapError (.under "error creating openflow port: ")
    refine (hcall.imp ?_) s hs
    rintro - s ⟨uuid, iface, hfresh, hs⟩
    refine ⟨rows.addPort _ hfresh, ⟨?_, hstand.bridges⟩, hs⟩
    rw [← hstand.attrs, Rows.addPort, List.map_append]
    rfl
  have hmod := (hserves.modPort { name := config.name, bridge := config.bridge } config).represents
    (attrs ++ [.plain config.bridge config.name]) room (by simp [Attrs.plain])
  have hcreated : Attrs.at config.name
      (Attrs.become { name := config.name, bridge := config.bridge } config)
      (.plain config.bridge config.name) = created config := if_pos rfl
  rw [List.map_append, map_at_of_not_mem attrs hname, List.map_singleton, hcreated] at hmod
  exact hcreate.bind fun _ => hmod

/-! ## The loops -/

omit hserves in
theorem foldl_filter (lefts : List OvsPort) (attrs : List Attrs) :
    lefts.foldl (fun attrs left => attrs.filter fun port => port.name ≠ left.name) attrs =
      attrs.filter fun port => port.name ∉ lefts.map OvsPort.name := by
  induction lefts generalizing attrs with
  | nil => simp
  | cons left rest ih =>
      rw [List.foldl_cons, ih, List.filter_filter]
      refine List.filter_congr fun port _ => ?_
      simp only [← Bool.decide_and, List.map_cons, List.mem_cons, not_or, and_comm]

theorem Serves.delPorts {lefts : List OvsPort}
    (hlefts : ∀ left ∈ lefts, ∀ port ∈ attrs, port.name = left.name → port.bridge = left.bridge) :
    Returns (Represents holds attrs room)
      (Procedure.forEach (fun l => logged (BridgePorts.delPort server l)) lefts) fun _ =>
        Represents holds (attrs.filter fun port => port.name ∉ lefts.map OvsPort.name) room := by
  rw [← foldl_filter]
  refine returns_forEach (R := fun _ attrs => Represents holds attrs room)
    (p := fun lefts attrs => ∀ left ∈ lefts, ∀ port ∈ attrs,
      port.name = left.name → port.bridge = left.bridge) ?_ lefts attrs hlefts
  intro left rest attrs hrest
  rw [List.forall_mem_cons] at hrest
  refine ⟨fun other hother port hport => ?_, (hserves.delPort attrs room hrest.1).leaves⟩
  exact hrest.2 other hother port (List.mem_of_mem_filter hport)

omit hserves in
theorem foldl_created (rights : List OvsPort) (attrs : List Attrs) :
    rights.foldl (fun attrs right => attrs ++ [created right]) attrs =
      attrs ++ rights.map created := by
  induction rights generalizing attrs with
  | nil => simp
  | cons right rest ih => simp [ih]

theorem Serves.addPorts {rights : List OvsPort}
    (hrights : ∀ right ∈ rights, right.bridge ∈ ownBridges ∧ right.name ∉ attrs.map Attrs.name)
    (hnodup : (rights.map OvsPort.name).Nodup) :
    Returns (Represents holds attrs (room + 2 * rights.length))
      (Procedure.forEach (fun r => logged (BridgePorts.addPort server r)) rights) fun _ =>
        Represents holds (attrs ++ rights.map created) room := by
  rw [← foldl_created]
  refine returns_forEach (R := fun rest attrs => Represents holds attrs (room + 2 * rest.length))
    (p := fun rest attrs => (rest.map OvsPort.name).Nodup ∧
      ∀ right ∈ rest, right.bridge ∈ ownBridges ∧ right.name ∉ attrs.map Attrs.name) ?_ rights
    attrs ⟨hnodup, hrights⟩
  rintro right rest attrs ⟨hnodup, hrest⟩
  rw [List.forall_mem_cons] at hrest
  rw [List.map_cons, List.nodup_cons] at hnodup
  refine ⟨⟨hnodup.2, fun other hother => ⟨(hrest.2 other hother).1, ?_⟩⟩,
    (hserves.addPort attrs (room + 2 * rest.length) hrest.1.1 hrest.1.2).leaves⟩
  have hne : other.name ≠ right.name := fun heq =>
    hnodup.1 (heq ▸ List.mem_map_of_mem hother)
  rw [List.map_append, List.mem_append, List.map_singleton, List.mem_singleton, created,
    (become_keeps _ _).name]
  exact fun hmem => hmem.elim (hrest.2 other hother).2 hne

/-- What becomes of a port when the pairs are gone through. -/
def settle (pairs : List (OvsPort × OvsPort)) (port : Attrs) : Attrs :=
  pairs.foldl (fun port pair => port.at pair.2.name (Attrs.become pair.1 pair.2)) port

omit hserves in
theorem foldl_settle (pairs : List (OvsPort × OvsPort)) (attrs : List Attrs) :
    pairs.foldl (fun attrs pair =>
      attrs.map (Attrs.at pair.2.name (Attrs.become pair.1 pair.2))) attrs =
      attrs.map (settle pairs) := by
  induction pairs generalizing attrs with
  | nil => exact (List.map_id attrs).symm
  | cons pair rest ih =>
      rw [List.foldl_cons, ih, List.map_map]
      rfl

theorem Serves.modPorts {pairs : List (OvsPort × OvsPort)}
    (hpairs : ∀ pair ∈ pairs, pair.2.name ∈ attrs.map Attrs.name) :
    Returns (Represents holds attrs room)
      (Procedure.forEach (fun pair => logged (BridgePorts.modPort server pair.1 pair.2)) pairs)
      fun _ => Represents holds (attrs.map (settle pairs)) room := by
  rw [← foldl_settle]
  refine returns_forEach (R := fun _ attrs => Represents holds attrs room)
    (p := fun pairs attrs => ∀ pair ∈ pairs, pair.2.name ∈ attrs.map Attrs.name) ?_ pairs attrs
    hpairs
  intro pair rest attrs hrest
  rw [List.forall_mem_cons] at hrest
  refine ⟨?_, ((hserves.modPort pair.1 pair.2).represents attrs room hrest.1).leaves⟩
  have hnames : (attrs.map (Attrs.at pair.2.name (Attrs.become pair.1 pair.2))).map Attrs.name =
      attrs.map Attrs.name := by
    rw [List.map_map]
    exact List.map_congr_left fun port _ => ((become_keeps _ _).at _).name port
  rw [hnames]
  exact hrest.2

omit hserves in
theorem settle_of_not_mem {pairs : List (OvsPort × OvsPort)} {port : Attrs}
    (hport : ∀ pair ∈ pairs, pair.2.name ≠ port.name) : settle pairs port = port := by
  induction pairs with
  | nil => rfl
  | cons pair rest ih =>
      rw [List.forall_mem_cons] at hport
      rw [settle, List.foldl_cons, Attrs.at, if_neg (Ne.symm hport.1)]
      exact ih hport.2

omit hserves in
theorem settle_of_mem {pairs : List (OvsPort × OvsPort)} {port : Attrs}
    (hnodup : (pairs.map fun pair => pair.2.name).Nodup) {pair : OvsPort × OvsPort}
    (hpair : pair ∈ pairs) (hname : pair.2.name = port.name) :
    settle pairs port = port.become pair.1 pair.2 := by
  induction pairs with
  | nil => exact absurd hpair List.not_mem_nil
  | cons head rest ih =>
      rw [List.map_cons, List.nodup_cons] at hnodup
      rw [settle, List.foldl_cons]
      rcases List.mem_cons.mp hpair with rfl | hpair
      · rw [Attrs.at, if_pos hname.symm]
        apply settle_of_not_mem
        intro other hother heq
        rw [(become_keeps _ _).name, ← hname] at heq
        exact hnodup.1 (List.mem_map.mpr ⟨other, hother, heq⟩)
      · have hne : port.name ≠ head.2.name := fun heq =>
          hnodup.1 (List.mem_map.mpr ⟨pair, hpair, hname.trans heq⟩)
        rw [Attrs.at, if_neg hne]
        exact ih hnodup.2 hpair

end Calls

/-! ## The join -/

def OvsPort.key (port : OvsPort) : String × String := (port.name, port.bridge)

theorem portScore_eq : portScore = Join.keyMatch OvsPort.key OvsPort.key := by
  funext left right
  simp [portScore, Join.keyMatch, OvsPort.key]

theorem key_nodup {ports : List OvsPort} (hnodup : (ports.map OvsPort.name).Nodup) :
    (ports.map OvsPort.key).Nodup := by
  have hnames : (ports.map OvsPort.key).map Prod.fst = ports.map OvsPort.name := by
    rw [List.map_map]
    rfl
  exact List.Nodup.of_map Prod.fst (hnames ▸ hnodup)

theorem config_created (config : OvsPort) : (created config).config = config := by
  have hplain : (Attrs.plain config.bridge config.name).config =
      { name := config.name, bridge := config.bridge } := rfl
  rw [created, ← hplain]
  refine (config_become_iff rfl rfl).mpr ⟨?_, ?_, ?_, ?_⟩
  · exact fun htype => absurd htype (by decide : ("" : String) ≠ ifaceTypePatch)
  all_goals exact fun _ hget => nomatch hget

/-- A pass over the ports: the targets, what is listed, and how the two are joined. -/
structure Pass (attrs : List Attrs) (targets current : List OvsPort)
    (joined : Join.Joined OvsPort OvsPort) : Prop where
  names : (attrs.map Attrs.name).Nodup
  nodup : (targets.map OvsPort.name).Nodup
  own : ∀ target ∈ targets, target.bridge ∈ ownBridges ∧ target.name ∉ ownBridges
  foreign : ∀ port ∈ attrs, port.bridge ∉ ownBridges → port.name ∉ targets.map OvsPort.name
  listed : current.Perm ((attrs.filter fun port => port.bridge ∈ ownBridges).map Attrs.config)
  joined_eq : joined = Join.join portScore current targets

def doomed (joined : Join.Joined OvsPort OvsPort) : List String :=
  (joined.lonelyLefts.filter fun l => l.name ≠ l.bridge).map OvsPort.name

def filled (joined : Join.Joined OvsPort OvsPort) (attrs : List Attrs) : List Attrs :=
  (attrs.filter fun port => port.name ∉ doomed joined) ++ joined.lonelyRights.map created

def settled (joined : Join.Joined OvsPort OvsPort) (attrs : List Attrs) : List Attrs :=
  (filled joined attrs).map (settle joined.pairs)

namespace Pass

variable {attrs : List Attrs} {targets current : List OvsPort}
  {joined : Join.Joined OvsPort OvsPort} (hpass : Pass attrs targets current joined)
include hpass

theorem mem_current_iff {config : OvsPort} :
    config ∈ current ↔ ∃ port ∈ attrs, port.bridge ∈ ownBridges ∧ port.config = config := by
  rw [hpass.listed.mem_iff, List.mem_map]
  simp only [List.mem_filter, decide_eq_true_eq, and_assoc]

theorem current_nodup : (current.map OvsPort.name).Nodup := by
  rw [(hpass.listed.map OvsPort.name).nodup_iff, List.map_map]
  exact (List.filter_sublist.map _).nodup hpass.names

/-- A target with the name of a port is not the bridge of the port itself. -/
theorem name_ne_bridge {port : Attrs} {target : OvsPort} (htarget : target ∈ targets)
    (hname : port.name = target.name) (hbridge : port.bridge ∈ ownBridges) :
    port.name ≠ port.bridge := by
  intro heq
  rw [← heq, hname] at hbridge
  exact (hpass.own target htarget).2 hbridge

theorem mem_doomed_iff {port : Attrs} (hport : port ∈ attrs) :
    port.name ∈ doomed joined ↔
      port.bridge ∈ ownBridges ∧ port.name ≠ port.bridge ∧
        port.config.key ∉ targets.map OvsPort.key := by
  simp only [doomed, hpass.joined_eq, portScore_eq, List.mem_map (f := OvsPort.name),
    List.mem_filter, Join.mem_lonelyLefts_iff (key_nodup hpass.current_nodup),
    hpass.mem_current_iff, decide_eq_true_eq]
  constructor
  · rintro ⟨_, ⟨⟨⟨other, hother, hbridge, rfl⟩, hkey⟩, hne⟩, hname⟩
    obtain rfl := List.inj_on_of_nodup_map hpass.names hother hport hname
    exact ⟨hbridge, hne, hkey⟩
  · rintro ⟨hbridge, hne, hkey⟩
    exact ⟨port.config, ⟨⟨⟨port, hport, hbridge, rfl⟩, hkey⟩, hne⟩, rfl⟩

theorem mem_lonelyRights_iff {right : OvsPort} :
    right ∈ joined.lonelyRights ↔ right ∈ targets ∧ right.key ∉ current.map OvsPort.key := by
  rw [hpass.joined_eq, portScore_eq, Join.mem_lonelyRights_iff (key_nodup hpass.nodup)]

/-- The ports that are paired with a target. -/
theorem mem_pairs_iff {pair : OvsPort × OvsPort} :
    pair ∈ joined.pairs ↔
      pair.2 ∈ targets ∧ ∃ port ∈ attrs, port.config = pair.1 ∧ port.config.key = pair.2.key := by
  rw [hpass.joined_eq, portScore_eq,
    Join.mem_pairs_iff (key_nodup hpass.current_nodup) (key_nodup hpass.nodup),
    hpass.mem_current_iff]
  constructor
  · rintro ⟨⟨port, hport, -, heq⟩, htarget, hkey⟩
    exact ⟨htarget, port, hport, heq, heq ▸ hkey⟩
  · rintro ⟨htarget, port, hport, heq, hkey⟩
    have hbridge : port.bridge = pair.2.bridge := congrArg Prod.snd hkey
    exact ⟨⟨port, hport, hbridge ▸ (hpass.own pair.2 htarget).1, heq⟩, htarget, heq ▸ hkey⟩

theorem rights_nodup :
    ((joined.pairs.map fun pair => pair.2.name) ++ joined.lonelyRights.map OvsPort.name).Nodup := by
  have hrights := (Join.join_rights_perm portScore current targets).map OvsPort.name
  rw [← hpass.joined_eq, List.map_append, List.map_map] at hrights
  exact hrights.nodup_iff.mpr hpass.nodup

theorem not_mem_of_lonely {right : OvsPort} (hright : right ∈ joined.lonelyRights) :
    right.name ∉ (attrs.filter fun port => port.name ∉ doomed joined).map Attrs.name := by
  rw [hpass.mem_lonelyRights_iff] at hright
  intro hmem
  obtain ⟨port, hport, hname⟩ := List.mem_map.mp hmem
  obtain ⟨hport, hkept⟩ := List.mem_filter.mp hport
  have hbridge : port.bridge ∈ ownBridges := by
    by_contra hforeign
    exact hpass.foreign port hport hforeign (hname ▸ List.mem_map_of_mem hright.1)
  refine of_decide_eq_true hkept ((hpass.mem_doomed_iff hport).mpr
    ⟨hbridge, hpass.name_ne_bridge hright.1 hname hbridge, fun hkey => ?_⟩)
  obtain ⟨target, htarget, heq⟩ := List.mem_map.mp hkey
  -- the targets have distinct names, so this one is the port that is missing
  obtain rfl := List.inj_on_of_nodup_map hpass.nodup htarget hright.1
    ((congrArg Prod.fst heq).trans hname)
  refine hright.2 (heq ▸ List.mem_map_of_mem ?_)
  exact hpass.mem_current_iff.mpr ⟨port, hport, hbridge, rfl⟩

/-- A port that has a target is kept. -/
theorem mem_filled {port : Attrs} (hport : port ∈ attrs) {target : OvsPort}
    (htarget : target ∈ targets) (hkey : port.config.key = target.key) :
    port ∈ filled joined attrs := by
  refine List.mem_append_left _ (List.mem_filter.mpr ⟨hport, decide_eq_true fun hmem => ?_⟩)
  exact ((hpass.mem_doomed_iff hport).mp hmem).2.2 (hkey ▸ List.mem_map_of_mem htarget)

theorem updatePorts_returns {σ : Type} {server : Server Table Column σ}
    {holds : Rows → ℕ → σ → Prop} (hserves : Serves server holds) (room : ℕ) :
    Returns (Represents holds attrs (room + 2 * targets.length))
      (do
        Procedure.forEach (fun l => logged (delPort server l))
          (joined.lonelyLefts.filter fun l => l.name ≠ l.bridge)
        Procedure.forEach (fun r => logged (addPort server r)) joined.lonelyRights
        Procedure.forEach (fun pair => logged (modPort server pair.1 pair.2)) joined.pairs)
      fun _ => Represents holds (settled joined attrs) room := by
  have hlefts : ∀ left ∈ joined.lonelyLefts.filter (fun l => l.name ≠ l.bridge),
      ∀ port ∈ attrs, port.name = left.name → port.bridge = left.bridge := by
    intro left hleft port hport hname
    have hmem := List.mem_of_mem_filter hleft
    rw [hpass.joined_eq] at hmem
    obtain ⟨other, hother, -, rfl⟩ := hpass.mem_current_iff.mp
      ((Join.join_lonelyLefts_sublist portScore current targets).subset hmem)
    rw [List.inj_on_of_nodup_map hpass.names hport hother hname]
    rfl
  have hlonely : joined.lonelyRights.length ≤ targets.length := by
    have hlength := (Join.join_rights_perm portScore current targets).length_eq
    rw [← hpass.joined_eq, List.length_append] at hlength
    omega
  have hnames : ∀ pair ∈ joined.pairs, pair.2.name ∈ (filled joined attrs).map Attrs.name := by
    intro pair hpair
    obtain ⟨htarget, port, hport, -, hkey⟩ := hpass.mem_pairs_iff.mp hpair
    exact List.mem_map.mpr ⟨port, hpass.mem_filled hport htarget hkey, congrArg Prod.fst hkey⟩
  have hadd := hserves.addPorts _ room
    (fun right hright => ⟨(hpass.own right (hpass.mem_lonelyRights_iff.mp hright).1).1,
      hpass.not_mem_of_lonely hright⟩) (List.nodup_append.mp hpass.rights_nodup).2.1
  intro s hs
  exact ((hserves.delPorts attrs _ hlefts).bind fun _ => hadd.bind fun _ =>
    hserves.modPorts _ room hnames) s (hserves.fewer_le (by omega) hs)

/-! ## The ports afterwards -/

theorem settle_paired {port : Attrs} (hport : port ∈ attrs) {target : OvsPort}
    (htarget : target ∈ targets) (hkey : port.config.key = target.key) :
    settle joined.pairs port = port.become port.config target := by
  have hpair : (port.config, target) ∈ joined.pairs :=
    hpass.mem_pairs_iff.mpr ⟨htarget, port, hport, rfl, hkey⟩
  exact settle_of_mem (List.nodup_append.mp hpass.rights_nodup).1 hpair
    (congrArg Prod.fst hkey).symm

theorem settle_other {port : Attrs} (hport : port ∈ attrs)
    (hkey : port.config.key ∉ targets.map OvsPort.key) : settle joined.pairs port = port := by
  refine settle_of_not_mem fun pair hpair hname => hkey ?_
  obtain ⟨htarget, other, hother, -, hsame⟩ := hpass.mem_pairs_iff.mp hpair
  obtain rfl := List.inj_on_of_nodup_map hpass.names hother hport
    ((congrArg Prod.fst hsame).trans hname)
  exact hsame ▸ List.mem_map_of_mem htarget

theorem settle_created {right : OvsPort} (hright : right ∈ joined.lonelyRights) :
    settle joined.pairs (created right) = created right := by
  refine settle_of_not_mem fun pair hpair hname => ?_
  rw [created, (become_keeps _ _).name] at hname
  exact (List.nodup_append.mp hpass.rights_nodup).2.2 _ (List.mem_map_of_mem hpair) _
    (List.mem_map_of_mem hright) hname

theorem mem_settled_iff {config : OvsPort} :
    config ∈ ((settled joined attrs).filter fun port => port.bridge ∈ ownBridges).map
        Attrs.config ↔
      (config ∈ current ∧ config.name = config.bridge) ∨
        (∃ port ∈ attrs, ∃ target ∈ targets, port.config.key = target.key ∧
          (port.become port.config target).config = config) ∨
        config ∈ joined.lonelyRights := by
  simp only [settled, List.mem_map (f := Attrs.config), List.mem_filter, decide_eq_true_eq,
    List.mem_map (f := settle _)]
  constructor
  · rintro ⟨_, ⟨⟨port, hfilled, rfl⟩, hbridge⟩, rfl⟩
    rcases List.mem_append.mp hfilled with hmem | hmem
    · obtain ⟨hport, hkept⟩ := List.mem_filter.mp hmem
      by_cases hkey : port.config.key ∈ targets.map OvsPort.key
      · obtain ⟨target, htarget, heq⟩ := List.mem_map.mp hkey
        rw [hpass.settle_paired hport htarget heq.symm]
        exact .inr (.inl ⟨port, hport, target, htarget, heq.symm, rfl⟩)
      · rw [hpass.settle_other hport hkey] at hbridge ⊢
        refine .inl ⟨hpass.mem_current_iff.mpr ⟨port, hport, hbridge, rfl⟩, ?_⟩
        by_contra hne
        exact of_decide_eq_true hkept ((hpass.mem_doomed_iff hport).mpr ⟨hbridge, hne, hkey⟩)
    · obtain ⟨right, hright, rfl⟩ := List.mem_map.mp hmem
      rw [hpass.settle_created hright, config_created]
      exact .inr (.inr hright)
  · rintro (⟨hmem, hname⟩ | ⟨port, hport, target, htarget, hkey, rfl⟩ | hright)
    · obtain ⟨port, hport, hbridge, rfl⟩ := hpass.mem_current_iff.mp hmem
      have hkey : port.config.key ∉ targets.map OvsPort.key := by
        intro hkey
        obtain ⟨target, htarget, heq⟩ := List.mem_map.mp hkey
        exact hpass.name_ne_bridge htarget (congrArg Prod.fst heq).symm hbridge hname
      have hkept : port.name ∉ doomed joined := fun hdoomed =>
        ((hpass.mem_doomed_iff hport).mp hdoomed).2.1 hname
      have hfilled : port ∈ filled joined attrs :=
        List.mem_append_left _ (List.mem_filter.mpr ⟨hport, decide_eq_true hkept⟩)
      exact ⟨port, ⟨⟨port, hfilled, hpass.settle_other hport hkey⟩, hbridge⟩, rfl⟩
    · have hbridge : port.bridge = target.bridge := congrArg Prod.snd hkey
      refine ⟨_, ⟨⟨port, hpass.mem_filled hport htarget hkey,
        hpass.settle_paired hport htarget hkey⟩, ?_⟩, rfl⟩
      rw [(become_keeps _ _).bridge, hbridge]
      exact (hpass.own target htarget).1
    · refine ⟨created config, ⟨⟨_, List.mem_append_right _ (List.mem_map_of_mem hright),
        hpass.settle_created hright⟩, ?_⟩, config_created config⟩
      rw [created, (become_keeps _ _).bridge]
      exact (hpass.own config (hpass.mem_lonelyRights_iff.mp hright).1).1

/-- The bridges have their own ports and the targets exactly if nothing contradicted these. -/
theorem settled_perm_iff {after : List OvsPort} (hafter : (after.map OvsPort.name).Nodup)
    (hmem : ∀ config, config ∈ after ↔ config ∈ ((settled joined attrs).filter
      fun port => port.bridge ∈ ownBridges).map Attrs.config) :
    after.Perm ((current.filter fun port => port.name = port.bridge) ++ targets) ↔
      ∀ port ∈ attrs, ∀ target ∈ targets, port.config.key = target.key → port.Yields target := by
  have hnodup : ((current.filter fun port => port.name = port.bridge) ++ targets).Nodup := by
    apply List.Nodup.of_map OvsPort.name
    rw [List.map_append, List.nodup_append]
    refine ⟨(List.filter_sublist.map _).nodup hpass.current_nodup, hpass.nodup, ?_⟩
    rintro name hown name' hname rfl
    obtain ⟨config, hconfig, rfl⟩ := List.mem_map.mp hown
    obtain ⟨target, htarget, hsame⟩ := List.mem_map.mp hname
    obtain ⟨hcurrent, hname⟩ := List.mem_filter.mp hconfig
    obtain ⟨port, -, hbridge, rfl⟩ := hpass.mem_current_iff.mp hcurrent
    exact hpass.name_ne_bridge htarget hsame.symm hbridge (of_decide_eq_true hname)
  rw [List.perm_ext_iff_of_nodup (List.Nodup.of_map _ hafter) hnodup]
  simp only [hmem, hpass.mem_settled_iff, List.mem_append, List.mem_filter, decide_eq_true_eq]
  have hiff : ∀ {port : Attrs} {target : OvsPort}, port.config.key = target.key →
      ((port.become port.config target).config = target ↔ port.Yields target) :=
    fun hkey => config_become_iff (congrArg Prod.fst hkey) (congrArg Prod.snd hkey)
  constructor
  · intro hall port hport target htarget hkey
    have hkey' : (port.become port.config target).config.key = target.key := by
      rw [← hkey]
      exact Prod.ext ((become_keeps _ _).name port) ((become_keeps _ _).bridge port)
    rw [← hiff hkey]
    rcases (hall _).mp (.inr (.inl ⟨port, hport, target, htarget, hkey, rfl⟩)) with
      ⟨-, hown⟩ | hmem
    · have hown' : target.name = target.bridge :=
        (congrArg Prod.fst hkey').symm.trans (hown.trans (congrArg Prod.snd hkey'))
      exact absurd (hown' ▸ (hpass.own target htarget).1) (hpass.own target htarget).2
    · exact List.inj_on_of_nodup_map hpass.nodup hmem htarget (congrArg Prod.fst hkey')
  · intro hyields config
    constructor
    · rintro (hown | ⟨port, hport, target, htarget, hkey, rfl⟩ | hright)
      · exact .inl hown
      · rw [(hiff hkey).mpr (hyields port hport target htarget hkey)]
        exact .inr htarget
      · exact .inr (hpass.mem_lonelyRights_iff.mp hright).1
    · rintro (hown | htarget)
      · exact .inl hown
      · by_cases hkey : config.key ∈ current.map OvsPort.key
        · obtain ⟨found, hfound, hsame⟩ := List.mem_map.mp hkey
          obtain ⟨port, hport, -, rfl⟩ := hpass.mem_current_iff.mp hfound
          exact .inr (.inl ⟨port, hport, config, htarget, hsame,
            (hiff hsame).mpr (hyields port hport config htarget hsame)⟩)
        · exact .inr (.inr (hpass.mem_lonelyRights_iff.mpr ⟨htarget, hkey⟩))

end Pass

/-! ## The ports of the containers -/

theorem ofList_append_inj {left right : List Char} {suffix : String}
    (heq : String.ofList left ++ suffix = String.ofList right ++ suffix) : left = right := by
  have hlist := congrArg String.toList heq
  simpa using hlist

theorem getLast_append {head : List Char} {suffix : String} {c : Char}
    (hc : suffix.toList.getLast? = some c) :
    (String.ofList head ++ suffix).toList.getLast? = some c := by
  simp [List.getLast?_append, hc]

/-- The last letters of the names of the three ports. -/
theorem names_last (id : String) :
    (OpenFlow.vethOut id).toList.getLast? = some 'c' ∧
      (OpenFlow.peerDI id).toList.getLast? = some 'i' ∧ (peerBr id).toList.getLast? = some 'r' :=
  ⟨getLast_append (by decide), getLast_append (by decide), getLast_append (by decide)⟩

theorem ne_of_last {left right : String} {c d : Char} (hleft : left.toList.getLast? = some c)
    (hright : right.toList.getLast? = some d) (hne : c ≠ d) : left ≠ right := by
  rintro rfl
  exact hne (Option.some.inj (hleft.symm.trans hright))

def portNames (id : String) : List String := [OpenFlow.vethOut id, OpenFlow.peerDI id, peerBr id]

theorem portNames_nodup (id : String) : (portNames id).Nodup := by
  obtain ⟨hveth, hdi, hbr⟩ := names_last id
  simp [portNames, ne_of_last hveth hdi (by decide), ne_of_last hveth hbr (by decide),
    ne_of_last hdi hbr (by decide)]

theorem portNames_disjoint {id id' : String} (hne : id.toList.take 12 ≠ id'.toList.take 12) :
    (portNames id).Disjoint (portNames id') := by
  obtain ⟨hveth, hdi, hbr⟩ := names_last id
  obtain ⟨hveth', hdi', hbr'⟩ := names_last id'
  have hlonger : id.toList.take 13 ≠ id'.toList.take 13 := by
    intro heq
    have htake := congrArg (List.take 12) heq
    rw [List.take_take, List.take_take] at htake
    exact hne htake
  have hsame : OpenFlow.vethOut id' ≠ OpenFlow.vethOut id ∧
      OpenFlow.peerDI id' ≠ OpenFlow.peerDI id ∧ peerBr id' ≠ peerBr id :=
    ⟨fun heq => hlonger (ofList_append_inj heq).symm, fun heq => hne (ofList_append_inj heq).symm,
      fun heq => hne (ofList_append_inj heq).symm⟩
  simp [portNames, hsame, ne_of_last hveth' hdi (by decide), ne_of_last hveth' hbr (by decide),
    ne_of_last hdi' hveth (by decide), ne_of_last hdi' hbr (by decide),
    ne_of_last hbr' hveth (by decide), ne_of_last hbr' hdi (by decide)]

theorem generateTargetPorts_eq {containers : List Container} {targets : List OvsPort}
    (htargets : generateTargetPorts containers = .ok targets) :
    targets = containers.flatMap containerPorts := by
  obtain ⟨ports, hcollect, hflatten⟩ := Outcome.bind_eq_ok.mp htargets
  cases hflatten
  rw [List.flatMap_def]
  congr 1
  clear htargets
  induction containers generalizing ports with
  | nil =>
      cases hcollect
      rfl
  | cons dbc rest ih =>
      obtain ⟨first, more, hfirst, hmore, rfl⟩ := Outcome.collect_cons_eq_ok.mp hcollect
      split at hfirst
      · cases hfirst
      · cases hfirst
        rw [List.map_cons, ih more hmore]

theorem containerPorts_nodup {containers : List Container}
    (hcontainers : (containers.map fun dbc => dbc.schedID.toList.take 12).Nodup) :
    ((containers.flatMap containerPorts).map OvsPort.name).Nodup := by
  have hnames : (containers.flatMap containerPorts).map OvsPort.name =
      containers.flatMap fun dbc => portNames dbc.schedID := List.map_flatMap
  rw [hnames, List.nodup_flatMap]
  refine ⟨fun dbc _ => portNames_nodup dbc.schedID, ?_⟩
  rw [List.Nodup, List.pairwise_map] at hcontainers
  exact hcontainers.imp portNames_disjoint

theorem containerPorts_own (containers : List Container) :
    ∀ target ∈ containers.flatMap containerPorts,
      target.bridge ∈ ownBridges ∧ target.name ∉ ownBridges := by
  intro target htarget
  obtain ⟨dbc, -, hmem⟩ := List.mem_flatMap.mp htarget
  obtain ⟨hveth, hdi, hbr⟩ := names_last dbc.schedID
  have hown : ∀ bridge ∈ ownBridges, bridge.toList.getLast? = some 't' := by decide
  simp only [containerPorts, List.mem_cons, List.not_mem_nil, or_false] at hmem
  rcases hmem with rfl | rfl | rfl
  · exact ⟨List.mem_cons_self, fun hname => ne_of_last hveth (hown _ hname) (by decide) rfl⟩
  · exact ⟨List.mem_cons_self, fun hname => ne_of_last hdi (hown _ hname) (by decide) rfl⟩
  · exact ⟨List.mem_of_mem_getLast? rfl, fun hname =>
      ne_of_last hbr (hown _ hname) (by decide) rfl⟩

def Rows.listed (rows : Rows) : List OvsPort :=
  (rows.ports.filter fun port => port.bridge ∈ ownBridges).map fun port => port.config

/-- A pass over the ports of a worker.  The ports of a bridge itself stay, the containers get
theirs, and everything else is deleted, unless an interface that is there already contradicts what
a container is to have: then nothing is replaced. -/
theorem updatePorts_settles_iff {σ : Type} {server : Server Table Column σ}
    {holds : Rows → ℕ → σ → Prop} (hserves : Serves server holds) (rows : Rows)
    (hbridges : ∀ bridge ∈ ownBridges, bridge ∈ rows.bridges) {containers : List Container}
    {targets : List OvsPort} (htargets : generateTargetPorts containers = .ok targets)
    (hcontainers : (containers.map fun dbc => dbc.schedID.toList.take 12).Nodup)
    (hforeign : ∀ port ∈ rows.ports, port.bridge ∉ ownBridges →
      port.name ∉ targets.map OvsPort.name)
    {room : ℕ} {s : σ} (hs : holds rows (room + 2 * targets.length) s) :
    ∃ after failures final last failures',
      updatePorts server containers s = ⟨.ok (), after, failures⟩ ∧
      generateCurrentPorts server after = ⟨.ok final, last, failures'⟩ ∧
      (final.Perm ((rows.listed.filter fun port => port.name = port.bridge) ++ targets) ↔
        ∀ port ∈ rows.ports, ∀ target ∈ targets,
          port.name = target.name → port.bridge = target.bridge → port.Yields target) := by
  set attrs := rows.ports.map Port.toAttrs with hattrs
  have hstand : rows.Stand attrs := ⟨rfl, hbridges⟩
  have heq := generateTargetPorts_eq htargets
  have hpassOf : ∀ current : List OvsPort, current.Perm
      ((attrs.filter fun port => port.bridge ∈ ownBridges).map Attrs.config) →
      Pass attrs targets current (Join.join portScore current targets) := by
    intro current hcurrent
    refine ⟨hstand.names ▸ rows.names_nodup, heq ▸ containerPorts_nodup hcontainers,
      heq ▸ containerPorts_own containers, ?_, hcurrent, rfl⟩
    simpa [hattrs] using hforeign
  have hupdate : Returns (Represents holds attrs (room + 2 * targets.length))
      (updatePorts server containers) fun _ s => ∃ current, current.Perm
        ((attrs.filter fun port => port.bridge ∈ ownBridges).map Attrs.config) ∧
        Represents holds (settled (Join.join portScore current targets) attrs) room s := by
    refine returns_contained (Returns.leaves ?_)
    refine (hserves.dials attrs _).bind fun _ => returns_lift_bind htargets ?_
    refine (hserves.lists attrs _).bind fun current => returns_of_and fun hcurrent => ?_
    exact ((hpassOf current hcurrent).updatePorts_returns hserves room).imp
      fun _ s hs => ⟨current, hcurrent, hs⟩
  obtain ⟨_, after, failures, hran, current, hcurrent, hafter⟩ := hupdate s ⟨rows, hstand, hs⟩
  obtain ⟨final, last, failures', hlist, hfinal, -⟩ := hserves.lists _ room after hafter
  refine ⟨after, failures, final, last, failures', hran, hlist, ?_⟩
  have hlisted : current.Perm rows.listed := by
    rwa [hattrs, List.filter_map, List.map_map] at hcurrent
  have hnodup : (final.map OvsPort.name).Nodup := by
    rw [(hfinal.map OvsPort.name).nodup_iff, List.map_map]
    exact (List.filter_sublist.map _).nodup hafter.names_nodup
  have hperm : final.Perm ((rows.listed.filter fun port => port.name = port.bridge) ++ targets) ↔
      final.Perm ((current.filter fun port => port.name = port.bridge) ++ targets) :=
    ⟨fun h => h.trans ((hlisted.filter _).symm.append_right _),
      fun h => h.trans ((hlisted.filter _).append_right _)⟩
  rw [hperm, (hpassOf current hcurrent).settled_perm_iff hnodup fun _ => hfinal.mem_iff]
  simp only [hattrs, List.forall_mem_map, OvsPort.key, Prod.mk.injEq, and_imp]
  rfl

def uuidOf (last : Char) : String :=
  String.ofList ("00000000-0000-4000-8000-00000000000".toList ++ [last])

/-- A patch port of a container whose peer was another one. -/
def otherPeer : Rows where
  bridges := [diBridge, ovnBridge]
  ports := [⟨⟨diBridge, diBridge, "internal", .empty, .empty⟩, uuidOf '0', uuidOf '2'⟩,
    ⟨⟨OpenFlow.peerDI OpenFlow.red.schedID, diBridge, ifaceTypePatch,
      ⟨[("peer", "gone")], by decide⟩, .empty⟩, uuidOf '1', uuidOf '3'⟩]
  bridges_nodup := by decide
  homes := by decide
  ports_nodup := by decide
  ifaces_nodup := by decide
  names_nodup := by decide
  valid := by decide

def spare : List String := ['4', '5', '6', '7', '8', '9'].map uuidOf

theorem stored_otherPeer :
    Stored otherPeer (0 + 2 * (containerPorts OpenFlow.red).length) ⟨otherPeer.store, spare⟩ :=
  ⟨by decide, ⟨by decide, by decide, by decide⟩⟩

theorem updatePorts_settles_iff_otherPeer :
    ∃ after failures final last failures',
      updatePorts (schema.server .asStored) [OpenFlow.red] ⟨otherPeer.store, spare⟩ =
        ⟨.ok (), after, failures⟩ ∧
      generateCurrentPorts (schema.server .asStored) after = ⟨.ok final, last, failures'⟩ ∧
      ¬final.Perm ((otherPeer.listed.filter fun port => port.name = port.bridge) ++
        containerPorts OpenFlow.red) := by
  have htargets : generateTargetPorts [OpenFlow.red] = .ok (containerPorts OpenFlow.red) := rfl
  obtain ⟨after, failures, final, last, failures', hran, hlist, hiff⟩ :=
    updatePorts_settles_iff (stored_serves .asStored) otherPeer (by decide) htargets (by decide)
      (by decide) stored_otherPeer
  refine ⟨after, failures, final, last, failures', hran, hlist, fun hperm => ?_⟩
  have hyields := hiff.mp hperm _ (List.mem_of_mem_getLast? rfl) _
    (List.mem_cons_of_mem _ List.mem_cons_self) rfl rfl
  exact absurd (hyields.peer "gone" rfl) (by decide)

end BridgePorts
end Di
