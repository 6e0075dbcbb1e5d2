import QubesFirewall.Python
import QubesFirewall.Resolv
import QubesFirewall.ReadRules
import QubesFirewall.Translate
import QubesFirewall.Iptables
import QubesFirewall.Nftables
import QubesFirewall.Shape
import QubesFirewall.Packet
import QubesFirewall.IptablesMeaning
import QubesFirewall.NftablesMeaning
import QubesFirewall.Kernel
import QubesFirewall.Worker
import QubesFirewall.Daemon
import QubesFirewall.Install
import QubesFirewall.Chains
import QubesFirewall.ChainNames
import QubesFirewall.RuleStore
import QubesFirewall.Watch
import QubesFirewall.Cleanup
import QubesFirewall.Exceptions
import QubesFirewall.Registry
import QubesFirewall.Isolation
import QubesFirewall.Forward
import QubesFirewall.Restart
import QubesFirewall.Integrity
import QubesFirewall.Transparency
import QubesFirewall.LoadOrder
