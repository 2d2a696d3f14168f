import ScopedAccess.Engine.RolesLaws
import ScopedAccess.Moving
import ScopedAccess.RoleCalls
import ScopedAccess.RoleService
import ScopedAccess.Helpdesk
import ScopedAccess.Engine.Agreement
import ScopedAccess.Engine.Inert
import ScopedAccess.Engine.Nodes
import ScopedAccess.Lib.Delegation
import ScopedAccess.Orm
import ScopedAccess.Guarded
import ScopedAccess.Sessions
import ScopedAccess.Drift
import ScopedAccess.ReAuth.Ledger
import ScopedAccess.ReAuth.Lookup
import ScopedAccess.ReAuth.Credentials
import ScopedAccess.ReAuth.Window
import ScopedAccess.ReAuth.Receivers
import ScopedAccess.Concurrent.Alone
import ScopedAccess.Engine.Coherence
import ScopedAccess.Drf.Policies
import ScopedAccess.Drf.Judged
import ScopedAccess.Leaks
import ScopedAccess.Instances
import ScopedAccess.Engine.Ancestors
import ScopedAccess.Parsing
import ScopedAccess.Audit
import ScopedAccess.Records
import ScopedAccess.Additive
import ScopedAccess.Locked.Alone
import ScopedAccess.Admin
import ScopedAccess.Isolation
