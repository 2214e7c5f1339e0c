import RecordQuery.Proofs.Query.Reachable

/-!
# A sample registry

Accounts and users that relate to each other both ways, as the smallest registry in which general
statements can be seen at work.
-/

namespace RecordQuery.Sample

def accountFields : List Field :=
  [⟨"id", ⟨"Id", false, .scalar .string⟩⟩, ⟨"size", ⟨"Size", true, .scalar .float⟩⟩,
    ⟨"owner", ⟨"Owner", true, .relation "User" false⟩⟩,
    ⟨"users", ⟨"Users", false, .relation "User" true⟩⟩]

def userFields : List Field :=
  [⟨"id", ⟨"Id", false, .scalar .string⟩⟩, ⟨"since", ⟨"Since", false, .scalar .date⟩⟩,
    ⟨"account", ⟨"Account", false, .relation "Account" false⟩⟩]

def declarations : List Declaration :=
  [⟨"Account", none, [], accountFields⟩, ⟨"User", none, [], userFields⟩]

def registry : Registry :=
  ⟨0, [⟨"Account", "Account", accountFields⟩, ⟨"User", "User", userFields⟩]⟩

theorem registry_built : registry.Built := ⟨0, declarations, rfl⟩

def account : Model := ⟨registry, ⟨"Account", "Account", accountFields⟩, List.mem_cons_self⟩

def user : Model :=
  ⟨registry, ⟨"User", "User", userFields⟩, List.mem_cons_of_mem _ List.mem_cons_self⟩

def accountUsers : RelationPath := ⟨account, [], ⟨"users", "Users", true⟩, user⟩

theorem accountUsers_walked : accountUsers.Walked := by
  have step : account.relationAt "users" = .ok accountUsers := rfl
  exact .start registry_built step

def userAccount : RelationPath :=
  ⟨account, [⟨"users", "Users", true⟩], ⟨"account", "Account", false⟩, account⟩

theorem userAccount_walked : userAccount.Walked := by
  have step : accountUsers.relationAt "account" = .ok userAccount := rfl
  exact .onward accountUsers_walked step

def userId : AttributePath := ⟨user, [], user, "id", "Id", false, .string⟩

theorem userId_walked : userId.Walked := by
  have step : user.attributeAt "id" = .ok userId := rfl
  exact .direct registry_built step

/-! ### Queries over it -/

def isNamed (id : String) : Condition :=
  .compare userId (.relation .equal) (.literal (.string id))

def isFirst : Condition := isNamed "u1"

theorem isFirst_made : isFirst.Made := by
  have step : userId.compare (.relation .equal) (.literal (.string "u1")) = .ok isFirst := rfl
  exact .compare userId_walked (.literal _) step

def isOther : Condition := .compare userId .noneOf (.list [.string "u1", .string "u2"])

theorem isOther_made : isOther.Made := by
  have step : userId.compare .noneOf (.list [.string "u1", .string "u2"]) = .ok isOther := rfl
  exact .compare userId_walked (.list _) step

/-- The users of one name, at most five of them. -/
def firstUsers : Query := { Query.select user with filter := some isFirst, limit := some 5 }

theorem firstUsers_reachable : firstUsers.Reachable := by
  have filtered : (Query.select user).suchThat isFirst =
      .ok { Query.select user with filter := some isFirst } := rfl
  exact .limitTo (n := 5) (.suchThat (.select registry_built) isFirst_made filtered) rfl

def accountOfUser : Join Query :=
  ⟨"account", ⟨"Account", false, .relation "Account" false⟩, Query.select account⟩

def usersOfAccount (query : Query) : Join Query :=
  ⟨"users", ⟨"Users", false, .relation "User" true⟩, query⟩

/-- The users of one name with the account of each. -/
def joinedUsers : Query := { firstUsers with joins := [accountOfUser] }

def accountsWithUsers : Query := { Query.select account with joins := [usersOfAccount joinedUsers] }

theorem accountsWithUsers_reachable : accountsWithUsers.Reachable := by
  have nested : (Query.select account).join userAccount = .ok { Query.select account with
      joins := [usersOfAccount { Query.select user with joins := [accountOfUser] }] } := rfl
  exact .joinWith (.join (.select registry_built) userAccount_walked nested) accountUsers_walked
    firstUsers_reachable rfl

def accountsListingUsers : Query :=
  { Query.select account with joins := [usersOfAccount (Query.select user)] }

theorem accountsListingUsers_reachable : accountsListingUsers.Reachable := by
  have step : (Query.select account).join accountUsers = .ok accountsListingUsers := rfl
  exact .join (.select registry_built) accountUsers_walked step

/-- The accounts with the users of one name in each. -/
def accountsWithNamed (id : String) : Query :=
  { Query.select account with
    joins := [usersOfAccount { Query.select user with filter := some (isNamed id) }] }

end RecordQuery.Sample
