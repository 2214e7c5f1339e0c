import RecordQuery.Proofs.Instance.Reachable
import RecordQuery.Proofs.Sample

/-!
# Sample instances

An account with one user, made by assignments, over the sample registry.
-/

namespace RecordQuery.Sample

/-- A leap day of a year that needs a sign. -/
def leapDay : Date := ⟨12024, 2, 29, by decide⟩

/-- The float 2.5. -/
def twoAndHalf : Binary64 := .finite false ⟨4612811918334230528, by decide⟩

def firstUser : Instance :=
  ⟨user, [.value (.string "u1"), .value (.date leapDay), .unset], [false, false, false]⟩

theorem firstUser_reachable : firstUser.Reachable := by
  have step : Instance.ofValues user [("id", .string "u1"), ("since", .date leapDay)] =
      .ok firstUser := rfl
  exact .ofValues registry_built step

def namedAccount : Instance :=
  ⟨account, [.value (.string "a1"), .unset, .unset, .unset], [true, false, false, false]⟩

def sizedAccount : Instance :=
  ⟨account, [.value (.string "a1"), .value (.float twoAndHalf), .unset, .unset],
    [true, true, false, false]⟩

/-- The account has two changes and its user none. -/
def firstAccount : Instance :=
  ⟨account, [.value (.string "a1"), .value (.float twoAndHalf), .unset, .many [firstUser]],
    [true, true, false, false]⟩

theorem firstAccount_reachable : firstAccount.Reachable := by
  have named : (Instance.new account).set "id" (.string "a1") = .ok namedAccount := rfl
  have sized : namedAccount.set "size" (.float twoAndHalf) = .ok sizedAccount := rfl
  have joined : sizedAccount.setMany "users" [firstUser] = .ok firstAccount := rfl
  refine .setMany (.set (.set (.new registry_built) named) sized) (fun y hy => ?_) joined
  obtain rfl := List.mem_singleton.mp hy
  exact firstUser_reachable

end RecordQuery.Sample
