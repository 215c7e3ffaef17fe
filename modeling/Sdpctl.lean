import Sdpctl.Properties.RawData
import Sdpctl.Properties.NoStranded
import Sdpctl.Properties.Accounting
import Sdpctl.Properties.Writers
import Sdpctl.Properties.PhysicalBound
import Sdpctl.Properties.Gate
import Sdpctl.Properties.QaList
import Sdpctl.Properties.EventLog
import Sdpctl.Properties.Budget
import Sdpctl.Properties.Discard
import Sdpctl.Properties.Stored
import Sdpctl.Properties.Products
import Sdpctl.Properties.Verdict
import Sdpctl.Properties.Charged
import Sdpctl.Properties.CrashSafe
import Sdpctl.Properties.Quarantine
import Sdpctl.Properties.Purge
import Sdpctl.Properties.Single
import Sdpctl.Properties.Overrun
import Sdpctl.Properties.Cache
import Sdpctl.Properties.OneDeletion
import Sdpctl.Properties.Wedge
import Sdpctl.Properties.Unknown
import Sdpctl.Properties.Vanishing
import Sdpctl.Properties.EntityScoped
import Sdpctl.Properties.Owners
import Sdpctl.Coop.Isolation
import Sdpctl.Properties.Statements
import Sdpctl.Properties.Commands
import Sdpctl.Properties.Containers
import Sdpctl.Properties.Operator
import Sdpctl.Properties.Rows
import Sdpctl.Properties.Ticks
import Sdpctl.Properties.Quantities
