import Di.Engine

/-!
# Automatic sizes and the price cap

A spec machine without a size gets the cheapest size in its ranges.  The cap is read by
`QueryFloat`, which knows floats only: a cap written as an integer reads as zero, which
means that there is none.
-/

namespace Di

namespace GoFloat

theorem le_refl (x : GoFloat) : x.le x = true := by
  cases x <;> simp [le]

theorem le_trans {x y z : GoFloat} (hxy : x.le y = true) (hyz : y.le z = true) :
    x.le z = true := by
  cases x <;> cases y <;> cases z <;> simp_all [le]
  exact hxy.trans hyz

theorem le_of_lt {x y : GoFloat} (hlt : x.lt y = true) : x.le y = true := by
  cases x <;> cases y <;> simp_all [lt, le]
  exact hlt.le

theorem le_of_not_lt {x y : GoFloat} (hlt : x.lt y = false) : y.le x = true := by
  simpa [lt] using hlt

end GoFloat

namespace Engine

open Db

/-- The description lies in both ranges of a machine. -/
def Description.fits (ram cpu : Lang.Range) (d : Description) : Bool :=
  ram.accepts d.ram && cpu.accepts (GoFloat.ofInt d.cpu)

/-- `d` is a cheapest description in range. -/
structure Cheapest (ram cpu : Lang.Range) (descriptions : List Description) (d : Description) :
    Prop where
  offered : d ∈ descriptions
  fits : d.fits ram cpu = true
  minimal : ∀ e ∈ descriptions, e.fits ram cpu = true → d.price.le e.price = true

/-! ## The scan of the price list -/

def cheaper (ram cpu : Lang.Range) (best d : Description) : Description :=
  if d.fits ram cpu && (best.size == "" || d.price.lt best.price) then d else best

/-- What the scan keeps: the zero description until one is in range, then a cheapest. -/
def Scanned (ram cpu : Lang.Range) (seen : List Description) (best : Description) : Prop :=
  best = {} ∧ (∀ d ∈ seen, d.fits ram cpu = false) ∨ Cheapest ram cpu seen best

section Scan

variable {ram cpu : Lang.Range}

theorem Cheapest.concat {seen : List Description} {best d : Description}
    (hbest : Cheapest ram cpu seen best)
    (hle : d.fits ram cpu = true → best.price.le d.price = true) :
    Cheapest ram cpu (seen ++ [d]) best where
  offered := List.mem_append_left _ hbest.offered
  fits := hbest.fits
  minimal := List.forall_mem_append.mpr ⟨hbest.minimal, List.forall_mem_singleton.mpr hle⟩

theorem cheapest_last {seen : List Description} {d : Description} (hfits : d.fits ram cpu = true)
    (hle : ∀ e ∈ seen, e.fits ram cpu = true → d.price.le e.price = true) :
    Cheapest ram cpu (seen ++ [d]) d where
  offered := List.mem_concat_self
  fits := hfits
  minimal := List.forall_mem_append.mpr
    ⟨hle, List.forall_mem_singleton.mpr fun _ => GoFloat.le_refl _⟩

theorem Scanned.step {seen : List Description} {best : Description} (d : Description)
    (hscanned : Scanned ram cpu seen best) (hnames : ∀ e ∈ seen, e.size ≠ "") :
    Scanned ram cpu (seen ++ [d]) (cheaper ram cpu best d) := by
  unfold cheaper
  cases hfits : d.fits ram cpu with
  | false =>
    rw [Bool.false_and, if_neg Bool.false_ne_true]
    rcases hscanned with ⟨hzero, hnone⟩ | hbest
    · exact .inl ⟨hzero, List.forall_mem_append.mpr ⟨hnone, List.forall_mem_singleton.mpr hfits⟩⟩
    · exact .inr (hbest.concat fun hd => absurd hd (by simp [hfits]))
  | true =>
    rw [Bool.true_and]
    rcases hscanned with ⟨hzero, hnone⟩ | hbest
    · have htake : (best.size == "" || d.price.lt best.price) = true := by
        simp [hzero]
      rw [if_pos htake]
      exact .inr (cheapest_last hfits fun e he hefits => absurd hefits (by simp [hnone e he]))
    · have hsize : (best.size == "") = false := by
        simpa using hnames best hbest.offered
      rw [hsize, Bool.false_or]
      cases hlt : d.price.lt best.price with
      | true =>
        refine .inr (cheapest_last hfits ?_)
        intro e he hefits
        exact GoFloat.le_trans (GoFloat.le_of_lt hlt) (hbest.minimal e he hefits)
      | false => exact .inr (hbest.concat fun _ => GoFloat.le_of_not_lt hlt)

theorem Scanned.foldl {rest seen : List Description} {best : Description}
    (hscanned : Scanned ram cpu seen best) (hnames : ∀ e ∈ seen ++ rest, e.size ≠ "") :
    Scanned ram cpu (seen ++ rest) (rest.foldl (cheaper ram cpu) best) := by
  induction rest generalizing seen best with
  | nil =>
    rw [List.append_nil]
    exact hscanned
  | cons d rest ih =>
    rw [List.append_cons] at hnames ⊢
    refine ih (hscanned.step d ?_) hnames
    intro e he
    exact hnames e (by simp [he])

end Scan

/-- The picked size is that of a cheapest description in range, or empty when there is
none or it costs more than the cap. -/
theorem pickBestSize_spec {descriptions : List Description}
    (hnames : ∀ d ∈ descriptions, d.size ≠ "") (ram cpu : Lang.Range) (maxPrice : GoFloat) :
    (∀ d ∈ descriptions, d.fits ram cpu = false) ∧
        pickBestSize descriptions ram cpu maxPrice = "" ∨
      ∃ d, Cheapest ram cpu descriptions d ∧
        pickBestSize descriptions ram cpu maxPrice =
          if maxPrice = .zero ∨ d.price.le maxPrice = true then d.size else "" := by
  have hscan : Scanned ram cpu ([] ++ descriptions)
      (descriptions.foldl (cheaper ram cpu) {}) :=
    Scanned.foldl (.inl ⟨rfl, by simp⟩) hnames
  have hpick : pickBestSize descriptions ram cpu maxPrice =
      if (maxPrice == .zero ||
        (descriptions.foldl (cheaper ram cpu) {}).price.le maxPrice) = true
      then (descriptions.foldl (cheaper ram cpu) {}).size else "" := rfl
  rw [hpick]
  rcases hscan with ⟨hzero, hnone⟩ | hbest
  · refine .inl ⟨hnone, ?_⟩
    rw [hzero, ite_self]
  · refine .inr ⟨_, hbest, ?_⟩
    simp

/-! ## Spec machines -/

/-- The positive number a specification binds `MaxPrice` to. -/
def priceCap (dsl : Lang.Dsl) : Option GoFloat :=
  match dsl.binds.lookup "MaxPrice" with
  | some (.int p) => if 0 < p then some (.finite p) else none
  | some (.float p) => if GoFloat.zero.lt p then some p else none
  | _ => none

/-- `sized` respects the ranges and the cap. -/
structure WellSized (descriptions : List Description) (dslm : Lang.Machine)
    (cap : Option GoFloat) (sized : Option Machine) : Prop where
  chosen : ∀ m, sized = some m → ∃ d, Cheapest dslm.ram dslm.cpu descriptions d ∧
    m.size = d.size ∧ ∀ p, cap = some p → d.price.le p = true
  skipped : sized = none → ∀ p, cap = some p → ∀ d ∈ descriptions,
    d.fits dslm.ram dslm.cpu = true → d.price.le p = false

theorem toDBMachine_cons (outside : Outside) (maxPrice : GoFloat)
    (before : List Lang.Machine) (dslm : Lang.Machine) (after : List Lang.Machine) :
    toDBMachine outside (before ++ dslm :: after) maxPrice =
      toDBMachine outside before maxPrice ++ (toDBMachine1 outside maxPrice dslm).toList ++
        toDBMachine outside after maxPrice := by
  unfold toDBMachine
  rw [List.filterMap_append, List.filterMap_cons]
  cases toDBMachine1 outside maxPrice dslm <;> simp

/-- A machine without a size is skipped or gets the picked size. -/
theorem toDBMachine1_picked (outside : Outside) (maxPrice : GoFloat) {dslm : Lang.Machine}
    {role : Role} {provider : Provider} (hrole : parseRole dslm.role = some role)
    (hprovider : parseProvider dslm.provider = some provider) (hsize : dslm.size = "") :
    let size := outside.pickBestSize provider dslm.ram dslm.cpu maxPrice
    (size = "" ∧ toDBMachine1 outside maxPrice dslm = none) ∨
      (size ≠ "" ∧ ∃ m, toDBMachine1 outside maxPrice dslm = some m ∧ m.size = size) := by
  intro size
  simp only [toDBMachine1, hrole, hprovider, hsize, Option.bind_eq_bind, Option.bind_some]
  by_cases hempty : size = ""
  · exact .inl ⟨hempty, if_pos hempty⟩
  · exact .inr ⟨hempty, _, if_neg hempty, rfl⟩

section Sized

variable {descriptions : List Description} {dslm : Lang.Machine} {cap : Option GoFloat}
  {d : Description}

theorem wellSized_none (hnone : ∀ d ∈ descriptions, d.fits dslm.ram dslm.cpu = false) :
    WellSized descriptions dslm cap none where
  chosen := by simp
  skipped := by
    intro _ p _ d hd hfits
    rw [hnone d hd] at hfits
    contradiction

theorem wellSized_skipped_iff (hcheapest : Cheapest dslm.ram dslm.cpu descriptions d) :
    WellSized descriptions dslm cap none ↔ ∀ p, cap = some p → d.price.le p = false := by
  constructor
  · intro hsized p hcap
    exact hsized.skipped rfl p hcap d hcheapest.offered hcheapest.fits
  · intro hdear
    refine ⟨by simp, ?_⟩
    intro _ p hcap e he hfits
    by_contra hle
    rw [Bool.not_eq_false] at hle
    have hcheap := GoFloat.le_trans (hcheapest.minimal e he hfits) hle
    rw [hdear p hcap] at hcheap
    contradiction

theorem wellSized_chosen_iff (hcheapest : Cheapest dslm.ram dslm.cpu descriptions d) {m : Machine}
    (hsize : m.size = d.size) :
    WellSized descriptions dslm cap (some m) ↔ ∀ p, cap = some p → d.price.le p = true := by
  constructor
  · intro hsized p hcap
    obtain ⟨e, he, _, hle⟩ := hsized.chosen m rfl
    exact GoFloat.le_trans (hcheapest.minimal e he.offered he.fits) (hle p hcap)
  · intro hcheap
    refine ⟨?_, by simp⟩
    intro m' hm'
    rw [← Option.some.inj hm']
    exact ⟨d, hcheapest, hsize, hcheap⟩

/-- A description in range costs at most `p` exactly when a cheapest does. -/
theorem Cheapest.affordable_iff (hcheapest : Cheapest dslm.ram dslm.cpu descriptions d)
    (p : GoFloat) :
    ((∀ e ∈ descriptions, e.fits dslm.ram dslm.cpu = false) ∨
        ∃ e ∈ descriptions, e.fits dslm.ram dslm.cpu = true ∧ e.price.le p = true) ↔
      d.price.le p = true := by
  constructor
  · rintro (hnone | ⟨e, he, hfits, hle⟩)
    · have hfits := hcheapest.fits
      rw [hnone d hcheapest.offered] at hfits
      contradiction
    · exact GoFloat.le_trans (hcheapest.minimal e he hfits) hle
  · intro hle
    exact .inr ⟨d, hcheapest.offered, hcheapest.fits, hle⟩

end Sized

theorem maxPrice_of_int {dsl : Lang.Dsl} {p : ℤ}
    (hbind : dsl.binds.lookup "MaxPrice" = some (.int p)) :
    dsl.queryFloat "MaxPrice" = .zero ∧
      priceCap dsl = if 0 < p then some (.finite p) else none := by
  simp [Lang.Dsl.queryFloat, priceCap, hbind]

theorem maxPrice_of_not_int {dsl : Lang.Dsl}
    (hbind : ∀ p : ℤ, dsl.binds.lookup "MaxPrice" ≠ some (.int p)) {p : GoFloat}
    (hcap : priceCap dsl = some p) : dsl.queryFloat "MaxPrice" = p ∧ p ≠ .zero := by
  unfold priceCap at hcap
  split at hcap
  next q hlookup => exact absurd hlookup (hbind q)
  next x hlookup =>
    rw [Option.ite_none_right_eq_some] at hcap
    obtain ⟨hpositive, hx⟩ := hcap
    rw [← Option.some.inj hx]
    refine ⟨by simp [Lang.Dsl.queryFloat, hlookup], ?_⟩
    rintro rfl
    simp [GoFloat.lt, GoFloat.le_refl] at hpositive
  next => contradiction

section Cap

variable {outside : Outside} {dsl : Lang.Dsl} {dslm : Lang.Machine} {role : Role}
  {provider : Provider} {descriptions : List Description}

theorem toDBMachine1_wellSized_iff (hrole : parseRole dslm.role = some role)
    (hprovider : parseProvider dslm.provider = some provider)
    (hpick : ∀ ram cpu maxPrice, outside.pickBestSize provider ram cpu maxPrice =
      pickBestSize descriptions ram cpu maxPrice)
    (hnames : ∀ d ∈ descriptions, d.size ≠ "") (hsize : dslm.size = "") :
    WellSized descriptions dslm (priceCap dsl)
        (toDBMachine1 outside (dsl.queryFloat "MaxPrice") dslm) ↔
      ∀ p : ℤ, dsl.binds.lookup "MaxPrice" = some (.int p) → 0 < p →
        (∀ d ∈ descriptions, d.fits dslm.ram dslm.cpu = false) ∨
          ∃ d ∈ descriptions, d.fits dslm.ram dslm.cpu = true ∧
            d.price.le (.finite p) = true := by
  have hresult :=
    toDBMachine1_picked outside (dsl.queryFloat "MaxPrice") hrole hprovider hsize
  simp only [hpick] at hresult
  rcases pickBestSize_spec hnames dslm.ram dslm.cpu (dsl.queryFloat "MaxPrice") with
    ⟨hnone, hempty⟩ | ⟨d, hcheapest, hsized⟩
  · rcases hresult with ⟨_, hskip⟩ | ⟨hne, _⟩
    · rw [hskip]
      exact ⟨fun _ _ _ _ => .inl hnone, fun _ => wellSized_none hnone⟩
    · exact absurd hempty hne
  · rw [hsized] at hresult
    have hdsize := hnames d hcheapest.offered
    by_cases hint : ∃ p : ℤ, dsl.binds.lookup "MaxPrice" = some (.int p)
    · obtain ⟨p, hp⟩ := hint
      obtain ⟨hzero, hcap⟩ := maxPrice_of_int hp
      rw [hzero, if_pos (.inl rfl)] at hresult
      rcases hresult with ⟨hempty, _⟩ | ⟨_, m, hm, hmsize⟩
      · exact absurd hempty hdsize
      · rw [hzero, hm, wellSized_chosen_iff hcheapest hmsize, hcap, hp]
        simp only [hcheapest.affordable_iff, Option.some.injEq, Lang.Ast.scalar.injEq,
          Lang.Scalar.int.injEq,
          Option.ite_none_right_eq_some]
        constructor
        · rintro hcheap q rfl hpositive
          exact hcheap _ ⟨hpositive, rfl⟩
        · rintro hcheap q ⟨hpositive, rfl⟩
          exact hcheap p rfl hpositive
    · rw [not_exists] at hint
      refine iff_of_true ?_ fun p hp => absurd hp (hint p)
      rcases hresult with ⟨hempty, hskip⟩ | ⟨hne, m, hm, hmsize⟩
      · rw [hskip, wellSized_skipped_iff hcheapest]
        intro p hcap
        obtain ⟨hquery, _⟩ := maxPrice_of_not_int hint hcap
        rw [hquery] at hempty
        by_contra hle
        rw [Bool.not_eq_false] at hle
        rw [if_pos (.inr hle)] at hempty
        exact hdsize hempty
      · have hpaid : dsl.queryFloat "MaxPrice" = .zero ∨
            d.price.le (dsl.queryFloat "MaxPrice") = true := by
          by_contra hdear
          rw [if_neg hdear] at hne
          exact hne rfl
        rw [if_pos hpaid] at hmsize
        rw [hm, wellSized_chosen_iff hcheapest hmsize]
        intro p hcap
        obtain ⟨hquery, hpositive⟩ := maxPrice_of_not_int hint hcap
        rw [hquery] at hpaid
        exact hpaid.resolve_left hpositive

/-- Automatic sizes respect the ranges and the cap exactly when a cap written as an integer
excludes no machine. -/
theorem toDBMachine_wellSized_iff {before after : List Lang.Machine}
    (hmachines : dsl.queryMachines outside.githubKeys = before ++ dslm :: after)
    (hrole : parseRole dslm.role = some role)
    (hprovider : parseProvider dslm.provider = some provider)
    (hpick : ∀ ram cpu maxPrice, outside.pickBestSize provider ram cpu maxPrice =
      pickBestSize descriptions ram cpu maxPrice)
    (hnames : ∀ d ∈ descriptions, d.size ≠ "") (hsize : dslm.size = "") :
    ∃ sized : Option Machine,
      toDBMachine outside (dsl.queryMachines outside.githubKeys) (dsl.queryFloat "MaxPrice") =
        toDBMachine outside before (dsl.queryFloat "MaxPrice") ++ sized.toList ++
          toDBMachine outside after (dsl.queryFloat "MaxPrice") ∧
      (WellSized descriptions dslm (priceCap dsl) sized ↔
        ∀ p : ℤ, dsl.binds.lookup "MaxPrice" = some (.int p) → 0 < p →
          (∀ d ∈ descriptions, d.fits dslm.ram dslm.cpu = false) ∨
            ∃ d ∈ descriptions, d.fits dslm.ram dslm.cpu = true ∧
              d.price.le (.finite p) = true) := by
  refine ⟨toDBMachine1 outside (dsl.queryFloat "MaxPrice") dslm, ?_,
    toDBMachine1_wellSized_iff hrole hprovider hpick hnames hsize⟩
  rw [hmachines]
  exact toDBMachine_cons outside _ before dslm after

end Cap

def cappedMaster : Lang.AstMachine := { provider := "AmazonSpot", role := "Master" }

/-- One master on the spot market and a cap. -/
def cappedSpec (maxPrice : Lang.Ast) : Lang.Dsl where
  code := ""
  binds := [("MaxPrice", maxPrice)]
  store := { Lang.Store.empty with machines := [cappedMaster] }

/-- The only size on offer costs two dollars. -/
def dearOffer : Description :=
  { size := "m4.large", price := .finite 2, ram := .finite 8, cpu := 2 }

def dearMarket : Outside where
  githubKeys := fun _ => none
  myIP := none
  awsDescriptions := [dearOffer]
  googleDescriptions := []

theorem cappedSpec_int_bought :
    priceCap (cappedSpec (.int 1)) = some (.finite 1) ∧
      (toDBMachine dearMarket ((cappedSpec (.int 1)).queryMachines dearMarket.githubKeys)
        ((cappedSpec (.int 1)).queryFloat "MaxPrice")).map Machine.size = ["m4.large"] ∧
      dearOffer.price.le (.finite 1) = false := by
  decide +kernel

theorem cappedSpec_float_skipped :
    ∃ sized : Option Machine,
      toDBMachine dearMarket
          ((cappedSpec (.float (.finite 1))).queryMachines dearMarket.githubKeys)
          ((cappedSpec (.float (.finite 1))).queryFloat "MaxPrice") = [] ++ sized.toList ++ [] ∧
      WellSized [dearOffer] (Lang.convertAstMachine dearMarket.githubKeys cappedMaster)
        (priceCap (cappedSpec (.float (.finite 1)))) sized := by
  obtain ⟨sized, hsized, hiff⟩ := @toDBMachine_wellSized_iff dearMarket
    (cappedSpec (.float (.finite 1)))
    (Lang.convertAstMachine dearMarket.githubKeys cappedMaster)
    .master .amazonSpot [dearOffer] [] []
    rfl rfl rfl (fun _ _ _ => rfl) (by decide) rfl
  refine ⟨sized, hsized, hiff.mpr ?_⟩
  intro p hp
  cases hp

end Engine
end Di
