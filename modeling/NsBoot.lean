import NsBoot.Boot.Reset
import NsBoot.Boot.Targets
import NsBoot.Boot.Isolation
import NsBoot.Admin.Adding
import NsBoot.Dhcp.Hosts
import NsBoot.Admin.Sessions
import NsBoot.Boot.Frame
import NsBoot.Session.Backing
import NsBoot.Srv.Bases
import NsBoot.Admin.Proposal
import NsBoot.Body
import NsBoot.Save
import NsBoot.Dhcp.Complete
import NsBoot.Boot.Loop
import NsBoot.Names
import NsBoot.Validator
import NsBoot.Daemon
import NsBoot.Boot.Mount
import NsBoot.Boot.Free
import NsBoot.Boot.Script
import NsBoot.Admin.Races
import NsBoot.Session.Atomic
import NsBoot.Boot.Devices
import NsBoot.Boot.Commands
import NsBoot.Admin.TwoRuns
import NsBoot.Lib.Layers
import NsBoot.Session.Copies
