import PrometheusRing.NodeImage.EnvToYml

/-!
# Placeholders in a whole configuration

Every string of the configuration is replaced on its own, whatever the order in which its maps are iterated. There is
an error exactly if a placeholder of some string has no value.
-/

namespace PrometheusRing.EnvToYml

variable {σ : Type} {env : Environment} {v name : String}

/-- The name stands for nothing: it is reserved, its variable is unset or empty, or the host name cannot be read. -/
def Unresolvable (env : Environment) (name : String) : Prop :=
  name = "PROMETHEUS_YML" ∨ (name ≠ "HOSTNAME" ∧ env.getenv name = "") ∨
    (name = "HOSTNAME" ∧ ∃ err, env.hostname = .error err)

/-- The string is a value at some depth of the configuration. -/
def Data.Holds (v : String) : Data σ → Prop
  | .map _ value => ∃ key, (value key).Holds v
  | .slice _ item => ∃ i, (item i).Holds v
  | .string s => s = v
  | .other _ => False

/-- Some string of the configuration has a match whose name stands for nothing. -/
def Data.Unresolved (env : Environment) (data : Data σ) : Prop :=
  ∃ v, data.Holds v ∧ ∃ name ∈ placeHolders v, Unresolvable env name

/-- The same configuration, but for its strings, each of which is replaced. -/
inductive Replaced (env : Environment) : Data σ → Data σ → Prop where
  | map {keys value value'} : (∀ key, Replaced env (value key) (value' key)) →
      Replaced env (.map keys value) (.map keys value')
  | slice {len item item'} : (∀ i, Replaced env (item i) (item' i)) →
      Replaced env (.slice len item) (.slice len item')
  | string {s s'} : replaceString env s = .ok s' → Replaced env (.string s) (.string s')
  | other {c} : Replaced env (.other c) (.other c)

/-! ## Errors -/

theorem treatPlaceHolder_error_iff : (∃ err, treatPlaceHolder env name = .error err) ↔ Unresolvable env name := by
  unfold treatPlaceHolder Unresolvable
  split
  case isTrue h =>
      subst h
      cases env.hostname <;> simp
  case isFalse hhost =>
      split
      case isTrue h => simp [h]
      case isFalse h => by_cases hv : env.getenv name = "" <;> simp [hhost, h, hv]

theorem replaceMatch_error_iff (s name : String) :
    (∃ err, replaceMatch env s name = .error err) ↔ Unresolvable env name := by
  rw [← treatPlaceHolder_error_iff, replaceMatch]
  cases treatPlaceHolder env name <;> simp

theorem replaceString_error_iff :
    (∃ err, replaceString env v = .error err) ↔ ∃ name ∈ placeHolders v, Unresolvable env name :=
  Collect.foldlM_error_iff replaceMatch_error_iff (placeHolders v) v

theorem replacePlaceholders_error_iff (iteration : Iteration) (place : List Step) (data : Data σ) :
    (∃ err, replacePlaceholders env iteration place data = .error err) ↔ data.Unresolved env := by
  induction data generalizing place with
  | map keys value ih =>
      rw [replacePlaceholders, Collect.bind_error_iff, Collect.overKeys_error_iff]
      simp only [ih, Data.Unresolved, Data.Holds]
      constructor
      · rintro ⟨key, v, hv, hname⟩; exact ⟨v, ⟨key, hv⟩, hname⟩
      · rintro ⟨v, ⟨key, hv⟩, hname⟩; exact ⟨key, v, hv, hname⟩
  | slice len item ih =>
      rw [replacePlaceholders, Collect.bind_error_iff, Collect.overIndices_error_iff]
      simp only [ih, Data.Unresolved, Data.Holds]
      constructor
      · rintro ⟨i, v, hv, hname⟩; exact ⟨v, ⟨i, hv⟩, hname⟩
      · rintro ⟨v, ⟨i, hv⟩, hname⟩; exact ⟨i, v, hv, hname⟩
  | string v =>
      rw [replacePlaceholders, Collect.bind_error_iff, replaceString_error_iff]
      simp [Data.Unresolved, Data.Holds]
  | other v =>
      simp [replacePlaceholders, Data.Unresolved, Data.Holds, pure, Except.pure]

/-! ## Results -/

theorem exists_replaced (data : Data σ) (h : ¬ data.Unresolved env) :
    ∃ result, Replaced env data result ∧
      ∀ iteration place, replacePlaceholders env iteration place data = .ok result := by
  induction data with
  | map keys value ih =>
      have hpart : ∀ key, ¬ (value key).Unresolved env := fun key ⟨v, hv, hname⟩ => h ⟨v, ⟨key, hv⟩, hname⟩
      choose value' hreplaced hresult using fun key => ih key (hpart key)
      refine ⟨.map keys value', .map hreplaced, fun iteration place => ?_⟩
      rw [replacePlaceholders, Collect.overKeys_ok _ fun key => hresult key iteration _]
      rfl
  | slice len item ih =>
      have hpart : ∀ i, ¬ (item i).Unresolved env := fun i ⟨v, hv, hname⟩ => h ⟨v, ⟨i, hv⟩, hname⟩
      choose item' hreplaced hresult using fun i => ih i (hpart i)
      refine ⟨.slice len item', .slice hreplaced, fun iteration place => ?_⟩
      rw [replacePlaceholders, Collect.overIndices_ok fun i => hresult i iteration _]
      rfl
  | string v =>
      cases hv : replaceString env v with
      | error err => exact absurd ⟨v, rfl, replaceString_error_iff.mp ⟨err, hv⟩⟩ h
      | ok v' => exact ⟨.string v', .string hv, fun _ _ => by rw [replacePlaceholders, hv]; rfl⟩
  | other v => exact ⟨.other v, .other, fun _ _ => rfl⟩

/-- There is an error exactly if some string has a placeholder without a value. Otherwise the result is the
configuration with each string replaced, the same for all orders of iteration. -/
theorem replaces_every_string (env : Environment) (data : Data σ) :
    (∀ iteration, (∃ err, replacePlaceholders env iteration [] data = .error err) ↔ data.Unresolved env) ∧
      (data.Unresolved env ∨ ∃ result, Replaced env data result ∧
        ∀ iteration, replacePlaceholders env iteration [] data = .ok result) := by
  constructor
  · exact fun iteration => replacePlaceholders_error_iff iteration [] data
  · by_cases h : data.Unresolved env
    · exact Or.inl h
    · obtain ⟨result, hreplaced, hresult⟩ := exists_replaced data h
      exact Or.inr ⟨result, hreplaced, fun iteration => hresult iteration []⟩

end PrometheusRing.EnvToYml
